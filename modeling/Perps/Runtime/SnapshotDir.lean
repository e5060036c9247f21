import Perps.Lib.Decimal
import Perps.Lib.Runs
import Perps.Runtime.SnapshotStore

/-! The directory of the snapshots. A save writes a temporary file, syncs it and
renames it into place, then prunes; it may stop anywhere, and saves overlap. A
power loss takes back the last changes of the directory, which is never synced,
and the contents of files that are not synced. -/

namespace Perps

open Lib

namespace SnapshotStore

def fileName (appliedCount savedAt : ℕ) : String :=
  "snapshot-" ++ padStart (toString appliedCount) 12 '0' ++ "-" ++ toString savedAt ++ ".json"

def tmpPath (finalPath : String) : String := finalPath ++ ".tmp"

def isSnapshot (f : String) : Bool :=
  "snapshot-".toList.isPrefixOf f.toList && ".json".toList.isSuffixOf f.toList

/-- The names of the snapshots among those in the directory, newest first. -/
def list (entries : List String) : List String :=
  ((entries.filter isSnapshot).insertionSort fun a b => stringLe a b).reverse

/-! The disk -/

/-- A file, with `none` for a content that does not parse. -/
structure Inode where
  data : Option Json
  synced : Bool

/-- The directory and what it was before, down to the last power loss. -/
structure Disk where
  names : OrdMap String ℕ
  past : List (OrdMap String ℕ)
  inodes : List Inode

namespace Disk

def change (d : Disk) (names : OrdMap String ℕ) : Disk :=
  { d with names := names, past := d.names :: d.past }

/-- `open` for writing: the file is emptied, or made. -/
def openFile (d : Disk) (path : String) : Disk × ℕ :=
  match d.names.get? path with
  | some fd => ({ d with inodes := d.inodes.set fd ⟨none, false⟩ }, fd)
  | none =>
    ({ d.change (d.names.set path d.inodes.length) with inodes := d.inodes ++ [⟨none, false⟩] },
      d.inodes.length)

def writeFile (d : Disk) (fd : ℕ) (content : Json) : Disk :=
  { d with inodes := d.inodes.set fd ⟨some content, false⟩ }

def sync (d : Disk) (fd : ℕ) : Disk :=
  { d with inodes := d.inodes.modify fd fun f => { f with synced := true } }

/-- `none` if there is no such file. -/
def rename (d : Disk) (source target : String) : Option Disk :=
  (d.names.get? source).map fun fd => d.change ((d.names.erase source).set target fd)

def unlink (d : Disk) (path : String) : Disk := d.change (d.names.erase path)

/-- The last `back` changes of the directory are lost, and of the files that are
not synced those in `lost`. -/
def powerLoss (d : Disk) (back : ℕ) (lost : List ℕ) : Disk where
  names := ((d.names :: d.past)[back]?).getD d.names
  past := []
  inodes := d.inodes.mapIdx fun i f =>
    if f.synced = false ∧ i ∈ lost then { f with data := none } else f

def read (d : Disk) (path : String) : Option Json :=
  d.names.get? path >>= fun fd => d.inodes[fd]? >>= Inode.data

/-- What a load finds: a file that cannot be read is skipped. -/
def files (d : Disk) : List (String × Json) :=
  (list d.names.keys).filterMap fun f => (d.read f).map fun content => (f, content)

end Disk

/-! Saves -/

/-- What a save awaits. -/
inductive Work where
  | opening
  | writing (fd : ℕ) (content : Json)
  | syncing (fd : ℕ)
  | moving
  | listing
  | pruning (file : String) (stale : List String)

/-- The loop over the stale files. -/
def prune : List String → Option Work
  | [] => none
  | file :: stale => some (.pruning file stale)

/-- The files that are still to be unlinked. -/
def Work.stale : Work → List String
  | .pruning file stale => file :: stale
  | _ => []

def Work.isListing : Work → Bool
  | .listing => true
  | _ => false

structure Save where
  taken : EngineState
  savedAt : ℕ
  work : Work

def Save.file (s : Save) : String := fileName s.taken.appliedCount s.savedAt

/-- What lives on disk, and the saves at work in the memory of the engine. -/
structure Store where
  disk : Disk
  saves : List Save

def Store.init : Store := ⟨⟨.empty, [], []⟩, []⟩

/-- What an await of a save brings. An error ends the save, unless it is caught. -/
inductive Outcome where
  | opened (now : EngineState)
  | written
  | synced
  | renamed
  | listed (failed : Bool)
  | unlinked (failed : Bool)
  | error

inductive Action where
  | save (taken : EngineState) (savedAt : ℕ)
  | resume (i : ℕ) (outcome : Outcome)
  | crash
  | powerLoss (back : ℕ) (lost : List ℕ)

section Steps

variable (sha256 : Json → String) (retain : ℕ)

/-- The disk and what the save awaits next, `none` if it is over. -/
def resume (disk : Disk) (s : Save) : Outcome → Option (Disk × Option Work)
  | .opened now =>
    match s.work with
    | .opening =>
      let (disk, fd) := disk.openFile (tmpPath s.file)
      some (disk, some (.writing fd (save sha256 s.taken now s.savedAt)))
    | _ => none
  | .written =>
    match s.work with
    | .writing fd content => some (disk.writeFile fd content, some (.syncing fd))
    | _ => none
  | .synced =>
    match s.work with
    | .syncing fd => some (disk.sync fd, some .moving)
    | _ => none
  | .renamed =>
    match s.work with
    | .moving => (disk.rename (tmpPath s.file) s.file).map fun disk => (disk, some .listing)
    | _ => none
  | .listed failed =>
    match s.work with
    | .listing =>
      let files := if failed then [] else list disk.names.keys
      some (disk, prune (files.drop retain))
    | _ => none
  | .unlinked failed =>
    match s.work with
    | .pruning file stale => some (if failed then disk else disk.unlink file, prune stale)
    | _ => none
  | .error =>
    match s.work with
    | .listing => none
    | .pruning _ _ => none
    | _ => some (disk, none)

def Store.put (st : Store) (i : ℕ) (s : Save) (disk : Disk) (work : Option Work) : Store where
  disk := disk
  saves := st.saves.take i ++ (work.map fun w => { s with work := w }).toList ++
    st.saves.drop (i + 1)

def step (st : Store) : Action → Option Store
  | .save taken savedAt =>
    some { st with saves := st.saves ++ [{ taken := taken, savedAt := savedAt, work := .opening }] }
  | .resume i outcome => do
    let s ← st.saves[i]?
    let (disk, work) ← resume sha256 retain st.disk s outcome
    some (st.put i s disk work)
  | .crash => some { st with saves := [] }
  | .powerLoss back lost => some { disk := st.disk.powerLoss back lost, saves := [] }

variable {sha256 retain}

/-- What a save does when it goes on, by what it was waiting for. -/
inductive Resumed (sha256 : Json → String) (retain : ℕ) (d : Disk) (s : Save) :
    Outcome → Disk → Option Work → Prop
  | opened (now : EngineState) (hwork : s.work = .opening) :
      Resumed sha256 retain d s (.opened now) (d.openFile (tmpPath s.file)).1
        (some (.writing (d.openFile (tmpPath s.file)).2 (save sha256 s.taken now s.savedAt)))
  | written {fd : ℕ} {content : Json} (hwork : s.work = .writing fd content) :
      Resumed sha256 retain d s .written (d.writeFile fd content) (some (.syncing fd))
  | synced {fd : ℕ} (hwork : s.work = .syncing fd) :
      Resumed sha256 retain d s .synced (d.sync fd) (some .moving)
  | renamed {fd : ℕ} (hwork : s.work = .moving)
      (hfd : d.names.get? (tmpPath s.file) = some fd) :
      Resumed sha256 retain d s .renamed
        (d.change ((d.names.erase (tmpPath s.file)).set s.file fd)) (some .listing)
  | listed (hwork : s.work = .listing) :
      Resumed sha256 retain d s (.listed false) d (prune ((list d.names.keys).drop retain))
  | unlisted (hwork : s.work = .listing) : Resumed sha256 retain d s (.listed true) d none
  | unlinked {file : String} {stale : List String} (failed : Bool)
      (hwork : s.work = .pruning file stale) :
      Resumed sha256 retain d s (.unlinked failed) (if failed then d else d.unlink file)
        (prune stale)
  | error (hwork : s.work.isListing = false) (hstale : s.work.stale = []) :
      Resumed sha256 retain d s .error d none

theorem resume_cases {d d' : Disk} {s : Save} {outcome : Outcome} {work : Option Work}
    (h : resume sha256 retain d s outcome = some (d', work)) :
    Resumed sha256 retain d s outcome d' work := by
  cases outcome with
  | opened now =>
    simp only [resume] at h
    split at h
    · next hwork =>
      obtain ⟨rfl, rfl⟩ := Prod.mk.inj (Option.some.inj h)
      exact .opened now hwork
    · cases h
  | written =>
    simp only [resume] at h
    split at h
    · next fd content hwork =>
      obtain ⟨rfl, rfl⟩ := Prod.mk.inj (Option.some.inj h)
      exact .written hwork
    · cases h
  | synced =>
    simp only [resume] at h
    split at h
    · next fd hwork =>
      obtain ⟨rfl, rfl⟩ := Prod.mk.inj (Option.some.inj h)
      exact .synced hwork
    · cases h
  | renamed =>
    simp only [resume] at h
    split at h
    · next hwork =>
      obtain ⟨disk, hdisk, heq⟩ := Option.map_eq_some_iff.mp h
      obtain ⟨fd, hfd, rfl⟩ := Option.map_eq_some_iff.mp hdisk
      obtain ⟨rfl, rfl⟩ := Prod.mk.inj heq
      exact .renamed hwork hfd
    · cases h
  | listed failed =>
    simp only [resume] at h
    split at h
    · next hwork =>
      obtain ⟨rfl, rfl⟩ := Prod.mk.inj (Option.some.inj h)
      cases failed with
      | false => exact .listed hwork
      | true => simpa [prune] using Resumed.unlisted hwork
    · cases h
  | unlinked failed =>
    simp only [resume] at h
    split at h
    · next file stale hwork =>
      obtain ⟨rfl, rfl⟩ := Prod.mk.inj (Option.some.inj h)
      exact .unlinked failed hwork
    · cases h
  | error =>
    simp only [resume] at h
    split at h
    · cases h
    · cases h
    · next hlisting hpruning =>
      obtain ⟨rfl, rfl⟩ := Prod.mk.inj (Option.some.inj h)
      cases hwork : s.work with
      | listing => exact absurd hwork hlisting
      | pruning file stale => exact absurd hwork (hpruning file stale)
      | _ => exact .error (by rw [hwork]; rfl) (by rw [hwork]; rfl)

inductive Transition (sha256 : Json → String) (retain : ℕ) (st : Store) : Action → Store → Prop
  | save (taken : EngineState) (savedAt : ℕ) :
      Transition sha256 retain st (.save taken savedAt)
        { st with saves := st.saves ++ [⟨taken, savedAt, .opening⟩] }
  | resume {i : ℕ} {outcome : Outcome} {s : Save} {disk : Disk} {work : Option Work}
      (hs : st.saves[i]? = some s) (h : Resumed sha256 retain st.disk s outcome disk work) :
      Transition sha256 retain st (.resume i outcome) (st.put i s disk work)
  | crash : Transition sha256 retain st .crash { st with saves := [] }
  | powerLoss (back : ℕ) (lost : List ℕ) :
      Transition sha256 retain st (.powerLoss back lost)
        { disk := st.disk.powerLoss back lost, saves := [] }

theorem step_cases {st st' : Store} {a : Action} (h : step sha256 retain st a = some st') :
    Transition sha256 retain st a st' := by
  cases a with
  | save taken savedAt =>
    obtain rfl := Option.some.inj h
    exact .save taken savedAt
  | resume i outcome =>
    obtain ⟨s, hs, h⟩ := Option.bind_eq_some_iff.mp h
    obtain ⟨⟨disk, work⟩, hr, h⟩ := Option.bind_eq_some_iff.mp h
    obtain rfl := Option.some.inj h
    exact .resume hs (resume_cases hr)
  | crash =>
    obtain rfl := Option.some.inj h
    exact .crash
  | powerLoss back lost =>
    obtain rfl := Option.some.inj h
    exact .powerLoss back lost

end Steps

/-- The other saves stay as they are. -/
theorem Store.put_saves {st : Store} {i : ℕ} {s : Save} (h : st.saves[i]? = some s) :
    ∃ rest, st.saves.Perm (s :: rest) ∧ ∀ disk work,
      (st.put i s disk work).saves.Perm
        ((work.map fun w => { s with work := w }).toList ++ rest) := by
  obtain ⟨hi, rfl⟩ := List.getElem?_eq_some_iff.mp h
  refine ⟨st.saves.take i ++ st.saves.drop (i + 1), ?_, fun disk work => ?_⟩
  · have heq : st.saves = st.saves.take i ++ st.saves[i] :: st.saves.drop (i + 1) := by simp
    exact (List.Perm.of_eq heq).trans List.perm_middle
  · rw [← List.append_assoc]
    exact List.perm_append_comm.append_right _

/-! The list -/

theorem mem_list {f : String} {entries : List String} :
    f ∈ list entries ↔ f ∈ entries ∧ isSnapshot f := by
  rw [list, List.mem_reverse, List.mem_insertionSort, List.mem_filter]

theorem list_nodup {entries : List String} (h : entries.Nodup) : (list entries).Nodup := by
  rw [list, List.nodup_reverse, (List.perm_insertionSort _ _).nodup_iff]
  exact h.filter _

/-- The newest come first. -/
theorem list_pairwise {entries : List String} (h : entries.Nodup) :
    (list entries).Pairwise fun f g => codeUnits g < codeUnits f := by
  have hsorted : (list entries).Pairwise fun f g => stringLe g f := by
    rw [list, List.pairwise_reverse]
    have : Std.Total fun a b => stringLe a b = true :=
      ⟨fun a b => by simpa using stringLe_total a b⟩
    have : IsTrans String fun a b => stringLe a b = true := ⟨stringLe_trans⟩
    exact List.pairwise_insertionSort _ _
  refine (hsorted.and (list_nodup h)).imp fun ⟨hle, hne⟩ => ?_
  rw [stringLe, decide_eq_true_eq] at hle
  exact lt_of_le_of_ne hle fun heq => hne (codeUnits_injective heq).symm

theorem isSnapshot_fileName (appliedCount savedAt : ℕ) :
    isSnapshot (fileName appliedCount savedAt) := by
  simp only [isSnapshot, Bool.and_eq_true, List.isPrefixOf_iff_prefix, List.isSuffixOf_iff_suffix,
    fileName, String.toList_append]
  constructor
  · simp only [List.append_assoc]
    exact List.prefix_append _ _
  · exact List.suffix_append _ _

theorem not_isSnapshot_tmpPath (f : String) : ¬ isSnapshot (tmpPath f) := by
  intro h
  simp only [isSnapshot, Bool.and_eq_true, List.isSuffixOf_iff_suffix, tmpPath,
    String.toList_append] at h
  obtain ⟨t, ht⟩ := h.2
  have hlast := congrArg List.getLast? ht
  simp at hlast

theorem tmpPath_injective {f g : String} (h : tmpPath f = tmpPath g) : f = g := by
  have h := congrArg String.toList h
  simp only [tmpPath, String.toList_append] at h
  exact String.toList_injective (List.append_cancel_right h)

/-- The names come in the order of the counters in them. -/
theorem fileName_lt {m n : ℕ} (hmn : m < n) (hn : n < 10 ^ 12) (p q : ℕ) :
    codeUnits (fileName m p) < codeUnits (fileName n q) := by
  simp only [codeUnits, fileName, String.toList_append, List.append_assoc]
  rw [List.flatMap_append, @List.flatMap_append _ _ "snapshot-".toList]
  refine List.append_left_lt ?_
  exact padStart_lt hmn hn _ _

end SnapshotStore

end Perps
