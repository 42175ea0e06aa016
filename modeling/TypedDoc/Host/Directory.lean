/-
  TypedDoc.Host.Directory — a tree of folders and files, as far as files in it are read,
  replaced, renamed and removed.

  A file is an identity: a path leads to it, its contents belong to it. No two paths lead
  to one file. Opening for writing empties the file a path leads to, or makes a new one; a
  rename moves a file to another path and leaves what was there without one; contents stay
  with a file whose path is gone. So whoever has opened a file goes on writing into that
  same file.

  Nothing at the end of a path, or no folder on the way, is reported as not found; a file
  on the way, or a folder where a file should be, as another failure. The top is its own
  parent. Files show the failures that the directory was told.
-/

import TypedDoc.Host.Faults
import TypedDoc.Host.FilePath
import TypedDoc.Text.Utf8
import TypedDoc.Wire.Sink
import TypedDoc.Wire.Supply

namespace TypedDoc.Host

open Wire

/-- The names that lead to a folder or file from the top. -/
abbrev Place := List String

structure Directory where
  /-- All folders but the top. -/
  folders : List Place
  files : List (Place × Nat)
  /-- The contents of all files there ever were; a file is an index. -/
  contents : List (List UInt8)
  faults : Faults
  /-- Nothing is a folder and a file. -/
  apart : ∀ f ∈ files, f.1 ∉ folders
  /-- One path leads to one file, and one file has one path. -/
  distinct : files.Pairwise fun f g => f.1 ≠ g.1 ∧ f.2 ≠ g.2
  held : ∀ f ∈ files, f.2 < contents.length
  deriving DecidableEq, Repr

theorem file_eq {files : List (Place × Nat)} (h : files.Pairwise fun f g => f.1 ≠ g.1 ∧ f.2 ≠ g.2)
    {f g : Place × Nat} (hf : f ∈ files) (hg : g ∈ files) (heq : f.1 = g.1 ∨ f.2 = g.2) : f = g := by
  induction h with
  | nil => cases hf
  | cons hall _ ih =>
    rcases List.mem_cons.1 hf with rfl | hf' <;> rcases List.mem_cons.1 hg with rfl | hg'
    · rfl
    · exact absurd heq (not_or.2 (hall g hg'))
    · exact absurd (heq.imp Eq.symm Eq.symm) (not_or.2 (hall f hf'))
    · exact ih hf' hg'

/-- What a path leads to. -/
inductive Spot where
  | folder (place : Place)
  | file (place : Place) (id : Nat)
  /-- Nothing, in a folder that is there. -/
  | free (place : Place)
  deriving DecidableEq, Repr

namespace Directory

def empty : Directory := ⟨[], [], [], .none, fun _ h => absurd h List.not_mem_nil, .nil, fun _ h => absurd h List.not_mem_nil⟩

/-! ## Looking -/

/-- Follows steps from a folder. -/
def follow (d : Directory) (here : Place) : List String → Except Error Spot
  | [] => .ok (.folder here)
  | "." :: steps => d.follow here steps
  | ".." :: steps => d.follow here.dropLast steps
  | name :: steps =>
    let place := here ++ [name]
    match d.files.lookup place with
    | some id => if steps = [] then .ok (.file place id) else .error .hostOther
    | none =>
      if d.folders.contains place then d.follow place steps
      else if steps = [] then .ok (.free place)
      else .error .hostNotFound

theorem mem_of_follow {d : Directory} {here place : Place} {steps : List String} {id : Nat}
    (h : d.follow here steps = .ok (.file place id)) : (place, id) ∈ d.files := by
  fun_induction follow d here steps with
  | case1 => cases h
  | case2 here steps ih => exact ih h
  | case3 here steps ih => exact ih h
  | case4 here name _ _ at' id' found =>
    obtain ⟨l, r, hl, -⟩ := List.lookup_eq_some_iff.1 found
    injection h with h
    injection h with hplace hid
    rw [hl, ← hplace, ← hid]
    exact List.mem_append_right l List.mem_cons_self
  | case5 => cases h
  | case6 here name steps _ _ at' _ _ ih => exact ih h
  | case7 => cases h
  | case8 => cases h

theorem vacant_of_follow {d : Directory} {here place : Place} {steps : List String}
    (h : d.follow here steps = .ok (.free place)) : place ∉ d.folders ∧ ∀ f ∈ d.files, f.1 ≠ place := by
  fun_induction follow d here steps with
  | case1 => cases h
  | case2 here steps ih => exact ih h
  | case3 here steps ih => exact ih h
  | case4 => cases h
  | case5 => cases h
  | case6 here name steps _ _ at' _ _ ih => exact ih h
  | case7 here name _ _ at' found hfolder =>
    injection h with h
    injection h with hplace
    rw [← hplace]
    refine ⟨fun hm => hfolder (List.contains_iff_mem.2 hm), fun f hf heq => ?_⟩
    exact bne_iff_ne.1 (List.lookup_eq_none_iff.1 found f hf) heq.symm
  | case8 => cases h

def locate (d : Directory) (p : FilePath) : Except Error Spot :=
  match d.follow [] p.steps with
  | .ok (.file place id) => if p.endsInSlash then .error .hostOther else .ok (.file place id)
  | spot => spot

theorem mem_of_locate {d : Directory} {p : FilePath} {place : Place} {id : Nat}
    (h : d.locate p = .ok (.file place id)) : (place, id) ∈ d.files := by
  unfold locate at h
  split at h
  · rename_i found
    split at h
    · cases h
    · cases h; exact mem_of_follow found
  · exact mem_of_follow h

theorem vacant_of_locate {d : Directory} {p : FilePath} {place : Place} (h : d.locate p = .ok (.free place)) :
    place ∉ d.folders ∧ ∀ f ∈ d.files, f.1 ≠ place := by
  unfold locate at h
  split at h
  · split at h <;> cases h
  · exact vacant_of_follow h

/-- There is a file or a folder. -/
def occupied (d : Directory) (p : FilePath) : Bool :=
  match d.locate p with
  | .ok (.free _) | .error _ => false
  | .ok _ => true

def content (d : Directory) (id : Nat) : List UInt8 := d.contents[id]?.getD []

/-- The stream of a file. A folder can be opened too, but not read. -/
def openRead (d : Directory) (p : FilePath) : Except Error Supply := do
  match ← d.locate p with
  | .file _ id =>
    match d.faults.openRead with
    | some e => .error e
    | none => .ok (.limited (d.content id) d.faults.chunk d.faults.cut)
  | .folder _ => .ok (.broken .hostOther)
  | .free _ => .error .hostNotFound

/-- The whole of a file, which must be UTF-8. -/
def readText (d : Directory) (p : FilePath) : Except Error String := do
  let bs ← (← d.openRead p).drain
  (Text.Utf8.decode bs).mapError fun _ => .hostOther

/-- All paths from the top in byte order, those of folders with a slash at the end. -/
def listing (d : Directory) : List String :=
  let files := d.files.map fun f => String.intercalate "/" f.1
  let folders := d.folders.map fun f => String.intercalate "/" f ++ "/"
  (files ++ folders).mergeSort fun a b => !(b < a)

/-! ## Files -/

def setContent (d : Directory) (id : Nat) (bs : List UInt8) : Directory :=
  { d with contents := d.contents.set id bs, held := fun f hf => by rw [List.length_set]; exact d.held f hf }

/-- A new file that no path leads to. -/
def grow (d : Directory) : Directory :=
  { d with
    contents := d.contents ++ [[]]
    held := fun f hf => by rw [List.length_append]; exact Nat.lt_add_right 1 (d.held f hf) }

/-- A path for a file that has none, where nothing is. -/
def link (d : Directory) (place : Place) (id : Nat) (apart : place ∉ d.folders)
    (distinct : ∀ f ∈ d.files, f.1 ≠ place ∧ f.2 ≠ id) (held : id < d.contents.length) : Directory :=
  { d with
    files := d.files ++ [(place, id)]
    apart := fun f hf => by
      rcases List.mem_append.1 hf with hf | hf
      · exact d.apart f hf
      · rw [List.mem_singleton.1 hf]; exact apart
    distinct := List.pairwise_append.2 ⟨d.distinct, List.pairwise_singleton _ _, fun f hf g hg => by
      rw [List.mem_singleton.1 hg]; exact distinct f hf⟩
    held := fun f hf => by
      rcases List.mem_append.1 hf with hf | hf
      · exact d.held f hf
      · rw [List.mem_singleton.1 hf]; exact held }

/-- Only the files that `keep` holds of stay. -/
def restrict (d : Directory) (keep : Place → Bool) : Directory :=
  { d with
    files := d.files.filter fun f => keep f.1
    apart := fun f hf => d.apart f (List.mem_filter.1 hf).1
    distinct := d.distinct.filter _
    held := fun f hf => d.held f (List.mem_filter.1 hf).1 }

def withoutFile (d : Directory) (place : Place) : Directory := d.restrict (· ≠ place)

/-- The file at a path, emptied, or a new one. -/
def create (d : Directory) (p : FilePath) : Except Error (Nat × Directory) :=
  match found : d.locate p, d.faults.openWrite with
  | .error e, _ => .error e
  | .ok (.folder _), _ => .error .hostOther
  | .ok _, some e => .error e
  | .ok (.file _ id), none => .ok (id, d.setContent id [])
  | .ok (.free place), none =>
    if p.endsInSlash then .error .hostOther
    else
      let vacant := vacant_of_locate found
      .ok (d.contents.length, d.grow.link place d.contents.length vacant.1
        (fun f hf => ⟨vacant.2 f hf, Nat.ne_of_lt (d.held f hf)⟩) (by simp [grow]))

/-- How many of so many bytes a file takes from an offset on. -/
def space (d : Directory) (offset count : Nat) : Nat :=
  match d.faults.room with
  | none => count
  | some room => min count (room - offset)

/-- `old` with `bs` written at an offset; what is missing before it are zeros. -/
def patch (offset : Nat) (bs old : List UInt8) : List UInt8 :=
  if bs = [] then old else (old.take offset).rightpad offset 0 ++ (bs ++ old.drop (offset + bs.length))

def overlay (d : Directory) (id offset : Nat) (bs : List UInt8) : Directory :=
  d.setContent id (patch offset bs (d.content id))

/-- The whole of a file becomes `bs`. -/
def writeFile (d : Directory) (p : FilePath) (bs : List UInt8) : Except Error Directory := do
  let (id, d) ← d.create p
  if d.space 0 bs.length < bs.length then throw Sink.writeFault
  return d.overlay id 0 bs

/-- Gives a file another path, in place of the file that may be there. -/
def move (d : Directory) (place place' : Place) (id : Nat) (here : (place, id) ∈ d.files) (apart : place' ∉ d.folders) :
    Directory :=
  ((d.withoutFile place).withoutFile place').link place' id apart
    (fun f hf => by
      obtain ⟨hf, hne'⟩ := List.mem_filter.1 hf
      obtain ⟨hf, hne⟩ := List.mem_filter.1 hf
      exact ⟨of_decide_eq_true hne', fun heq =>
        of_decide_eq_true hne (congrArg Prod.fst (file_eq d.distinct hf here (Or.inr heq)))⟩)
    (d.held _ here)

/-- Moves a file, in place of the file that may be there. -/
def rename (d : Directory) (source target : FilePath) : Except Error Directory :=
  match found : d.locate source, there : d.locate target with
  | .error e, _ => .error e
  | .ok _, .error e => .error e
  | .ok (.free _), .ok _ => .error .hostNotFound
  | .ok (.folder _), .ok _ | .ok (.file ..), .ok (.folder _) => .error .hostOther
  | .ok (.file place id), .ok (.file place' _) =>
    if target.endsInSlash then .error .hostOther
    else .ok (d.move place place' id (mem_of_locate found) (d.apart _ (mem_of_locate there)))
  | .ok (.file place id), .ok (.free place') =>
    if target.endsInSlash then .error .hostOther
    else .ok (d.move place place' id (mem_of_locate found) (vacant_of_locate there).1)

/-- The draft gets the path, unless that fails before anything shows. -/
def persist (d : Directory) (draft target : FilePath) : Except Error Directory :=
  match d.faults.commit with
  | some e => .error e
  | none => d.rename draft target

/-- Takes the path of a file away, if there is one. -/
def unlink (d : Directory) (p : FilePath) : Directory :=
  match d.locate p with
  | .ok (.file place _) => d.withoutFile place
  | _ => d

/-! ## Folders -/

def addFolder (d : Directory) (place : Place) (vacant : ∀ f ∈ d.files, f.1 ≠ place) : Directory :=
  { d with
    folders := d.folders ++ [place]
    apart := fun f hf hm => by
      rcases List.mem_append.1 hm with hm | hm
      · exact d.apart f hf hm
      · exact vacant f hf (List.mem_singleton.1 hm) }

/-- Makes the folders that steps need, as far as no file is in the way. -/
def makeSteps (d : Directory) (here : Place) : List String → Directory
  | [] => d
  | "." :: steps => d.makeSteps here steps
  | ".." :: steps => d.makeSteps here.dropLast steps
  | name :: steps =>
    let place := here ++ [name]
    if vacant : ∀ f ∈ d.files, f.1 ≠ place then
      if d.folders.contains place then d.makeSteps place steps else (d.addFolder place vacant).makeSteps place steps
    else d

def makeFolders (d : Directory) (p : FilePath) : Directory := d.makeSteps [] p.steps

/-- Takes away a file, or a folder with all that is in it. -/
def delete (d : Directory) (p : FilePath) : Directory :=
  match d.locate p with
  | .ok (.file place _) => d.withoutFile place
  | .ok (.folder place) =>
    let d := d.restrict (!place.isPrefixOf ·)
    { d with
      folders := d.folders.filter (!place.isPrefixOf ·)
      apart := fun f hf hm => d.apart f hf (List.mem_filter.1 hm).1 }
  | _ => d

end Directory

end TypedDoc.Host
