import Perps.Lib.Retain
import Perps.Proofs.SavedSnapshot
import Perps.Runtime.SnapshotDir

/-! The snapshots on disk. Whatever saves overlap, fail or are cut short, and
whatever a power loss takes back, a listed file holds what a save under its name
wrote, as long as no two saves of one name are at work at once, and a file is
unlinked only when `retain` newer ones are there. -/

namespace Perps

open Lib

namespace SnapshotStore

variable {sha256 : Json → String} {retain : ℕ}

section Files

-- the contents that may be under a name
variable {C C' : String → Json → Prop}

/-! Files that are whole -/

/-- A content for the name, all of it and synced. -/
def Whole (C : String → Json → Prop) (f : String) (x : Inode) : Prop :=
  x.synced = true ∧ ∃ content, C f content ∧ x.data = some content

/-- Of the directory and of what it was before: the names are of files, no two of
one file, and the snapshots are whole. A file under another name was never one. -/
structure DiskOK (C : String → Json → Prop) (d : Disk) : Prop where
  links : ∀ names ∈ d.names :: d.past, ∀ n fd, names.get? n = some fd → fd < d.inodes.length
  inj : ∀ names ∈ d.names :: d.past, ∀ n m fd,
    names.get? n = some fd → names.get? m = some fd → n = m
  whole : ∀ names ∈ d.names :: d.past, ∀ f fd, isSnapshot f → names.get? f = some fd →
    ∃ x, d.inodes[fd]? = some x ∧ Whole C f x
  apart : ∀ n fd, ¬ isSnapshot n → d.names.get? n = some fd → ∀ names ∈ d.names :: d.past, ∀ f,
    isSnapshot f → names.get? f ≠ some fd

/-- What a save has done so far. -/
def WorkOK (C : String → Json → Prop) (d : Disk) (s : Save) : Work → Prop
  | .opening => True
  | .writing fd content => d.names.get? (tmpPath s.file) = some fd ∧ C s.file content
  | .syncing fd => d.names.get? (tmpPath s.file) = some fd ∧
      ∃ content, C s.file content ∧ d.inodes[fd]? = some ⟨some content, false⟩
  | .moving => ∃ fd, d.names.get? (tmpPath s.file) = some fd ∧
      ∃ content, C s.file content ∧ d.inodes[fd]? = some ⟨some content, true⟩
  | .listing => True
  | .pruning file stale => ∀ f ∈ file :: stale, isSnapshot f

theorem Whole.mono (hC : ∀ f content, C f content → C' f content) {f : String} {x : Inode}
    (h : Whole C f x) : Whole C' f x := by
  obtain ⟨hsynced, content, hcontent, hdata⟩ := h
  exact ⟨hsynced, content, hC f content hcontent, hdata⟩

theorem DiskOK.mono (hC : ∀ f content, C f content → C' f content) {d : Disk} (h : DiskOK C d) :
    DiskOK C' d where
  links := h.links
  inj := h.inj
  whole := fun names hnames f fd hf hfd => by
    obtain ⟨x, hx, hwhole⟩ := h.whole names hnames f fd hf hfd
    exact ⟨x, hx, hwhole.mono hC⟩
  apart := h.apart

theorem WorkOK.mono (hC : ∀ f content, C f content → C' f content) {d : Disk} {s : Save}
    {w : Work} (h : WorkOK C d s w) : WorkOK C' d s w := by
  cases w with
  | opening | listing => trivial
  | writing fd content => exact ⟨h.1, hC _ _ h.2⟩
  | syncing fd =>
    obtain ⟨hfd, content, hcontent, hx⟩ := h
    exact ⟨hfd, content, hC _ _ hcontent, hx⟩
  | moving =>
    obtain ⟨fd, hfd, content, hcontent, hx⟩ := h
    exact ⟨fd, hfd, content, hC _ _ hcontent, hx⟩
  | pruning file stale => exact h

/-- Nothing changes about the file under a name. -/
def Untouched (d d' : Disk) (n : String) : Prop :=
  d'.names.get? n = d.names.get? n ∧
    ∀ fd, d.names.get? n = some fd → d'.inodes[fd]? = d.inodes[fd]?

theorem Untouched.refl (d : Disk) (n : String) : Untouched d d n := ⟨rfl, fun _ _ => rfl⟩

theorem WorkOK.frame {d d' : Disk} {s : Save} {w : Work} (h : WorkOK C d s w)
    (hd : Untouched d d' (tmpPath s.file)) : WorkOK C d' s w := by
  cases w with
  | opening | listing => trivial
  | writing fd content => exact ⟨hd.1.trans h.1, h.2⟩
  | syncing fd =>
    obtain ⟨hfd, content, hcontent, hx⟩ := h
    exact ⟨hd.1.trans hfd, content, hcontent, (hd.2 fd hfd).trans hx⟩
  | moving =>
    obtain ⟨fd, hfd, content, hcontent, hx⟩ := h
    exact ⟨fd, hd.1.trans hfd, content, hcontent, (hd.2 fd hfd).trans hx⟩
  | pruning file stale => exact h

/-! Steps of the disk -/

/-- A file that is no snapshot may be written to. -/
theorem DiskOK.touch {d : Disk} (h : DiskOK C d) {n : String} (hn : ¬ isSnapshot n) {fd : ℕ}
    (hfd : d.names.get? n = some fd) {inodes : List Inode} (hlen : inodes.length = d.inodes.length)
    (hrest : ∀ i, i ≠ fd → inodes[i]? = d.inodes[i]?) :
    DiskOK C { d with inodes := inodes } where
  links := fun names hnames m i hi => hlen ▸ h.links names hnames m i hi
  inj := h.inj
  whole := fun names hnames f i hf hi => by
    have hne : i ≠ fd := fun heq => h.apart n fd hn hfd names hnames f hf (heq ▸ hi)
    obtain ⟨x, hx, hwhole⟩ := h.whole names hnames f i hf hi
    exact ⟨x, (hrest i hne).trans hx, hwhole⟩
  apart := h.apart

theorem DiskOK.touch_others {d : Disk} (h : DiskOK C d) {n m : String} (hmn : m ≠ n) {fd : ℕ}
    (hfd : d.names.get? n = some fd) {inodes : List Inode}
    (hrest : ∀ i, i ≠ fd → inodes[i]? = d.inodes[i]?) :
    Untouched d { d with inodes := inodes } m :=
  ⟨rfl, fun i hi => hrest i fun heq =>
    hmn (h.inj d.names List.mem_cons_self m n fd (heq ▸ hi) hfd)⟩

/-- A change of the directory. -/
theorem DiskOK.change {d : Disk} (h : DiskOK C d) {names : OrdMap String ℕ}
    (hlinks : ∀ n fd, names.get? n = some fd → fd < d.inodes.length)
    (hinj : ∀ n m fd, names.get? n = some fd → names.get? m = some fd → n = m)
    (hwhole : ∀ f fd, isSnapshot f → names.get? f = some fd →
      ∃ x, d.inodes[fd]? = some x ∧ Whole C f x)
    (hapart : ∀ n fd, ¬ isSnapshot n → names.get? n = some fd → ∀ ns ∈ d.names :: d.past, ∀ f,
      isSnapshot f → ns.get? f ≠ some fd) :
    DiskOK C (d.change names) where
  links := fun ns hns => by
    rcases List.mem_cons.mp hns with rfl | hns
    · exact hlinks
    · exact h.links ns hns
  inj := fun ns hns => by
    rcases List.mem_cons.mp hns with rfl | hns
    · exact hinj
    · exact h.inj ns hns
  whole := fun ns hns => by
    rcases List.mem_cons.mp hns with rfl | hns
    · exact hwhole
    · exact h.whole ns hns
  apart := fun n fd hn hfd ns hns f hf hfd' => by
    rcases List.mem_cons.mp hns with rfl | hns
    · rw [hinj n f fd hfd hfd'] at hn
      exact hn hf
    · exact hapart n fd hn hfd ns hns f hf hfd'

/-- A file more, that no directory names. -/
theorem DiskOK.extend {d : Disk} (h : DiskOK C d) (x : Inode) :
    DiskOK C { d with inodes := d.inodes ++ [x] } where
  links := fun names hnames n fd hfd => by
    have := h.links names hnames n fd hfd
    rw [List.length_append]
    omega
  inj := h.inj
  whole := fun names hnames f fd hf hfd => by
    have hlt := h.links names hnames f fd hfd
    rw [List.getElem?_append_left hlt]
    exact h.whole names hnames f fd hf hfd
  apart := h.apart

theorem DiskOK.unlink {d : Disk} (h : DiskOK C d) (f : String) :
    DiskOK C (d.unlink f) := by
  have hsub {n : String} {fd : ℕ} (hn : (d.names.erase f).get? n = some fd) :
      d.names.get? n = some fd := by
    rw [OrdMap.get?_erase] at hn
    split_ifs at hn
    · exact hn
  have hcur : d.names ∈ d.names :: d.past := List.mem_cons_self
  exact h.change (fun n fd hn => h.links _ hcur n fd (hsub hn))
    (fun n m fd hn hm => h.inj _ hcur n m fd (hsub hn) (hsub hm))
    (fun g fd hg hfd => h.whole _ hcur g fd hg (hsub hfd))
    (fun n fd hn hfd => h.apart n fd hn (hsub hfd))

theorem DiskOK.powerLoss {d : Disk} (h : DiskOK C d) (back : ℕ) (lost : List ℕ) :
    DiskOK C (d.powerLoss back lost) := by
  have hmem : (d.powerLoss back lost).names ∈ d.names :: d.past := by
    show (((d.names :: d.past)[back]?).getD d.names) ∈ _
    cases hb : (d.names :: d.past)[back]? with
    | none => exact List.mem_cons_self
    | some names => exact List.mem_of_getElem? hb
  have hself {P : OrdMap String ℕ → Prop} (hP : P (d.powerLoss back lost).names) :
      ∀ names ∈ (d.powerLoss back lost).names :: (d.powerLoss back lost).past, P names :=
    fun names hnames => (List.mem_singleton.mp hnames) ▸ hP
  refine ⟨hself ?_, hself ?_, hself ?_, fun n fd hn hfd => hself ?_⟩
  · intro n fd hfd
    rw [Disk.powerLoss, List.length_mapIdx]
    exact h.links _ hmem n fd hfd
  · exact h.inj _ hmem
  · intro f fd hf hfd
    obtain ⟨x, hx, hwhole⟩ := h.whole _ hmem f fd hf hfd
    refine ⟨x, ?_, hwhole⟩
    rw [Disk.powerLoss, List.getElem?_mapIdx, hx, Option.map_some, if_neg]
    exact fun hlost => by simp [hwhole.1] at hlost
  · intro f hf hfd'
    rw [h.inj _ hmem n f fd hfd hfd'] at hn
    exact hn hf

theorem DiskOK.openFile {d : Disk} (h : DiskOK C d) {n : String} (hn : ¬ isSnapshot n) :
    DiskOK C (d.openFile n).1 ∧ (d.openFile n).1.names.get? n = some (d.openFile n).2 ∧
      ∀ m, m ≠ n → Untouched d (d.openFile n).1 m := by
  have hcur : d.names ∈ d.names :: d.past := List.mem_cons_self
  unfold Disk.openFile
  cases hfd : d.names.get? n with
  | some fd =>
    have hrest (i : ℕ) (hi : i ≠ fd) : (d.inodes.set fd ⟨none, false⟩)[i]? = d.inodes[i]? :=
      List.getElem?_set_ne hi.symm
    exact ⟨h.touch hn hfd List.length_set hrest, hfd, fun m hm => h.touch_others hm hfd hrest⟩
  | none =>
    -- the new file is under no name of any directory
    have hfresh : ∀ ns ∈ d.names :: d.past, ∀ m, ns.get? m ≠ some d.inodes.length :=
      fun ns hns m hm => lt_irrefl _ (h.links ns hns m _ hm)
    have hset {m : String} {fd : ℕ} (hm : (d.names.set n d.inodes.length).get? m = some fd) :
        m = n ∧ fd = d.inodes.length ∨ d.names.get? m = some fd := by
      rw [OrdMap.get?_set] at hm
      split_ifs at hm with heq
      · exact Or.inl ⟨heq, (Option.some.inj hm).symm⟩
      · exact Or.inr hm
    refine ⟨(h.extend ⟨none, false⟩).change ?_ ?_ ?_ ?_, OrdMap.get?_set_self .., fun m hm =>
      ⟨OrdMap.get?_set_ne _ hm _, fun fd hm' =>
        List.getElem?_append_left (h.links _ hcur m fd hm')⟩⟩
    · intro m fd hm
      rw [List.length_append]
      rcases hset hm with ⟨-, rfl⟩ | hm
      · exact Nat.lt_succ_self _
      · exact Nat.lt_succ_of_lt (h.links _ hcur m fd hm)
    · intro m m' fd hm hm'
      rcases hset hm with ⟨rfl, rfl⟩ | hold <;> rcases hset hm' with ⟨rfl, hlen⟩ | hold'
      · rfl
      · exact absurd hold' (hfresh _ hcur m')
      · exact absurd (hlen ▸ hold) (hfresh _ hcur m)
      · exact h.inj _ hcur m m' fd hold hold'
    · intro f fd hf hfd'
      rcases hset hfd' with ⟨rfl, -⟩ | hfd'
      · exact absurd hf hn
      · exact (h.extend _).whole _ hcur f fd hf hfd'
    · intro m fd hm hfd' ns hns f hf
      rcases hset hfd' with ⟨-, rfl⟩ | hfd'
      · exact hfresh ns hns f
      · exact h.apart m fd hm hfd' ns hns f hf

/-- A whole file takes its name. -/
theorem DiskOK.rename {d : Disk} (h : DiskOK C d) {n f : String} (hf : isSnapshot f) {fd : ℕ}
    (hfd : d.names.get? n = some fd) {x : Inode} (hx : d.inodes[fd]? = some x)
    (hwhole : Whole C f x) : DiskOK C (d.change ((d.names.erase n).set f fd)) := by
  have hcur : d.names ∈ d.names :: d.past := List.mem_cons_self
  have hset {m : String} {i : ℕ} (hm : ((d.names.erase n).set f fd).get? m = some i) :
      m = f ∧ i = fd ∨ m ≠ n ∧ d.names.get? m = some i := by
    rw [OrdMap.get?_set, OrdMap.get?_erase] at hm
    split_ifs at hm with h1 h2
    · exact Or.inl ⟨h1, (Option.some.inj hm).symm⟩
    · exact Or.inr ⟨h2, hm⟩
  refine h.change ?_ ?_ ?_ ?_
  · intro m i hm
    rcases hset hm with ⟨-, rfl⟩ | ⟨-, hm⟩
    · exact h.links _ hcur n i hfd
    · exact h.links _ hcur m i hm
  · intro m m' i hm hm'
    rcases hset hm with ⟨rfl, rfl⟩ | ⟨hne, hold⟩ <;>
      rcases hset hm' with ⟨rfl, hi⟩ | ⟨hne', hold'⟩
    · rfl
    · exact absurd (h.inj _ hcur m' n i hold' hfd) hne'
    · exact absurd (h.inj _ hcur m n i hold (hi ▸ hfd)) hne
    · exact h.inj _ hcur m m' i hold hold'
  · intro g i hg hi
    rcases hset hi with ⟨rfl, rfl⟩ | ⟨-, hi⟩
    · exact ⟨x, hx, hwhole⟩
    · exact h.whole _ hcur g i hg hi
  · intro m i hm hi
    rcases hset hi with ⟨rfl, -⟩ | ⟨-, hi⟩
    · exact absurd hf hm
    · exact h.apart m i hm hi

/-! Steps of a save -/

theorem prune_ok {d : Disk} {s : Save} {stale : List String} (h : ∀ f ∈ stale, isSnapshot f) :
    ∀ w ∈ prune stale, WorkOK C d s w := by
  cases stale with
  | nil => exact fun w hw => nomatch hw
  | cons file stale =>
    rintro _ ⟨⟩
    exact h

theorem Resumed.sound {d d' : Disk} {s : Save} {outcome : Outcome} {work : Option Work}
    (h : Resumed sha256 retain d s outcome d' work) (hd : DiskOK C d) (hs : WorkOK C d s s.work)
    (hC : ∀ now, s.work = .opening → outcome = .opened now →
      C s.file (save sha256 s.taken now s.savedAt)) :
    DiskOK C d' ∧ (∀ w ∈ work, WorkOK C d' s w) ∧
      ∀ n, ¬ isSnapshot n → n ≠ tmpPath s.file → Untouched d d' n := by
  have htmp : ¬ isSnapshot (tmpPath s.file) := not_isSnapshot_tmpPath _
  cases h with
  | opened now hwork =>
    obtain ⟨hok, hfd, hothers⟩ := hd.openFile htmp
    refine ⟨hok, ?_, fun n _ hn => hothers n hn⟩
    rintro _ ⟨⟩
    exact ⟨hfd, hC now hwork rfl⟩
  | @written fd content hwork =>
    rw [hwork] at hs
    obtain ⟨hfd, hcontent⟩ := hs
    have hlt := hd.links _ List.mem_cons_self _ _ hfd
    have hrest (x : Inode) (i : ℕ) (hi : i ≠ fd) : (d.inodes.set fd x)[i]? = d.inodes[i]? :=
      List.getElem?_set_ne hi.symm
    refine ⟨hd.touch htmp hfd List.length_set (hrest _), ?_, fun n _ hn =>
      hd.touch_others hn hfd (hrest _)⟩
    rintro _ ⟨⟩
    exact ⟨hfd, content, hcontent, List.getElem?_set_self hlt⟩
  | @synced fd hwork =>
    rw [hwork] at hs
    obtain ⟨hfd, content, hcontent, hx⟩ := hs
    have hrest (i : ℕ) (hi : i ≠ fd) :
        (d.inodes.modify fd fun f => { f with synced := true })[i]? = d.inodes[i]? :=
      List.getElem?_modify_ne _ _ hi.symm
    refine ⟨hd.touch htmp hfd (List.length_modify ..) hrest, ?_, fun n _ hn =>
      hd.touch_others hn hfd hrest⟩
    rintro _ ⟨⟩
    refine ⟨fd, hfd, content, hcontent, ?_⟩
    rw [Disk.sync, List.getElem?_modify_eq, hx]
    rfl
  | @renamed fd hwork hfd =>
    rw [hwork] at hs
    obtain ⟨fd', hfd', content, hcontent, hx⟩ := hs
    obtain rfl := Option.some.inj (hfd.symm.trans hfd')
    refine ⟨hd.rename (isSnapshot_fileName _ _) hfd hx ⟨rfl, content, hcontent, rfl⟩, ?_,
      fun n hn hne => ⟨?_, fun _ _ => rfl⟩⟩
    · rintro _ ⟨⟩
      trivial
    · have hnf : n ≠ s.file := fun heq => hn (heq ▸ isSnapshot_fileName _ _)
      rw [Disk.change, OrdMap.get?_set_ne _ hnf, OrdMap.get?_erase, if_neg hne]
  | listed hwork =>
    exact ⟨hd, prune_ok fun f hf => (mem_list.mp (List.mem_of_mem_drop hf)).2, fun n _ _ =>
      .refl d n⟩
  | unlisted hwork => exact ⟨hd, fun w hw => (nomatch hw), fun n _ _ => .refl d n⟩
  | @unlinked file stale failed hwork =>
    rw [hwork] at hs
    have hstale {d : Disk} : ∀ w ∈ prune stale, WorkOK C d s w :=
      prune_ok fun f hf => hs f (List.mem_cons_of_mem _ hf)
    cases failed with
    | true => exact ⟨hd, hstale, fun n _ _ => .refl d n⟩
    | false =>
      refine ⟨hd.unlink file, hstale, fun n hn _ => ⟨?_, fun _ _ => rfl⟩⟩
      have hne : n ≠ file := fun heq => hn (heq ▸ hs file List.mem_cons_self)
      exact (OrdMap.get?_erase ..).trans (if_neg hne)
  | error hwork hstale => exact ⟨hd, fun w hw => (nomatch hw), fun n _ _ => .refl d n⟩

theorem diskOK_init : DiskOK C Store.init.disk := by
  have hnone (names : OrdMap String ℕ) (h : names ∈ [OrdMap.empty]) (n : String) (fd : ℕ) :
      names.get? n ≠ some fd := by
    rw [List.mem_singleton.mp h]
    exact Option.some_ne_none fd |>.symm
  have hcur (n : String) (fd : ℕ) : Store.init.disk.names.get? n ≠ some fd :=
    hnone _ (List.mem_singleton_self _) n fd
  exact ⟨fun names h n fd hfd => absurd hfd (hnone names h n fd),
    fun names h n _ fd hfd => absurd hfd (hnone names h n fd),
    fun names h f fd _ hfd => absurd hfd (hnone names h f fd),
    fun n fd _ hfd => absurd hfd (hcur n fd)⟩

end Files

/-! Runs -/

/-- A save is the only one of its name at work, and its counter fits the name. -/
def Fresh (st : Store) : Action → Prop
  | .save taken savedAt => taken.appliedCount < 10 ^ 12 ∧
      fileName taken.appliedCount savedAt ∉ st.saves.map Save.file
  | _ => True

instance (st : Store) (a : Action) : Decidable (Fresh st a) :=
  match a with
  | .save _ _ => inferInstanceAs (Decidable (_ ∧ _))
  | .resume _ _ => inferInstanceAs (Decidable True)
  | .crash => inferInstanceAs (Decidable True)
  | .powerLoss _ _ => inferInstanceAs (Decidable True)

/-- The run has a save of `taken`, and the state is `now` when its file is open. -/
def Saved (sha256 : Json → String) (retain : ℕ) (as : List Action) (taken : EngineState)
    (savedAt : ℕ) (now : EngineState) : Prop :=
  ∃ xs u i, xs ++ [.resume i (.opened now)] <+: as ∧ .save taken savedAt ∈ xs ∧
    runs (step sha256 retain) .init xs = some u ∧
    u.saves[i]? = some { taken := taken, savedAt := savedAt, work := .opening }

/-- What a save of the run has written under its name. -/
def Written (sha256 : Json → String) (retain : ℕ) (as : List Action) (f : String) (content : Json) :
    Prop :=
  ∃ taken savedAt now, Saved sha256 retain as taken savedAt now ∧ taken.appliedCount < 10 ^ 12 ∧
    f = fileName taken.appliedCount savedAt ∧ content = save sha256 taken now savedAt

theorem Written.append {as : List Action} {f : String} {content : Json}
    (h : Written sha256 retain as f content) (bs : List Action) :
    Written sha256 retain (as ++ bs) f content := by
  obtain ⟨taken, savedAt, now, ⟨xs, u, i, hxs, hsave⟩, hrest⟩ := h
  exact ⟨taken, savedAt, now, ⟨xs, u, i, hxs.trans (List.prefix_append as bs), hsave⟩, hrest⟩

/-- After the actions of a run. -/
structure Sound (sha256 : Json → String) (retain : ℕ) (as : List Action) (st : Store) : Prop where
  disk : DiskOK (Written sha256 retain as) st.disk
  saves : ∀ s ∈ st.saves, WorkOK (Written sha256 retain as) st.disk s s.work
  begun : ∀ s ∈ st.saves, .save s.taken s.savedAt ∈ as ∧ s.taken.appliedCount < 10 ^ 12
  distinct : (st.saves.map Save.file).Nodup

theorem sound_init : Sound sha256 retain [] .init :=
  ⟨diskOK_init, fun _ hs => absurd hs List.not_mem_nil, fun _ hs => absurd hs List.not_mem_nil,
    List.nodup_nil⟩

theorem Sound.append {as : List Action} {st : Store} (h : Sound sha256 retain as st)
    (bs : List Action) : Sound sha256 retain (as ++ bs) st where
  disk := h.disk.mono fun _ _ hc => hc.append bs
  saves := fun s hs => (h.saves s hs).mono fun _ _ hc => hc.append bs
  begun := fun s hs => (h.begun s hs).imp_left (List.mem_append_left bs)
  distinct := h.distinct

theorem sound_step {as : List Action} {st st' : Store} {a : Action} (ha : Fresh st a)
    (has : runs (step sha256 retain) .init as = some st) (h : step sha256 retain st a = some st')
    (hst : Sound sha256 retain as st) : Sound sha256 retain (as ++ [a]) st' := by
  obtain ⟨hdisk, hsaves, hbegun, hdistinct⟩ := hst.append [a]
  cases step_cases h with
  | save taken savedAt =>
    refine ⟨hdisk, fun s hs => ?_, fun s hs => ?_, ?_⟩
    · rcases List.mem_append.mp hs with hs | hs
      · exact hsaves s hs
      · obtain rfl := List.mem_singleton.mp hs
        trivial
    · rcases List.mem_append.mp hs with hs | hs
      · exact hbegun s hs
      · obtain rfl := List.mem_singleton.mp hs
        exact ⟨List.mem_append_right _ List.mem_cons_self, ha.1⟩
    · rw [List.map_append]
      refine List.nodup_append.mpr ⟨hdistinct, List.nodup_singleton _, fun f hf g hg heq => ha.2 ?_⟩
      rw [heq, List.mem_singleton.mp hg] at hf
      exact hf
  | @resume i outcome s disk work hs hresumed =>
    obtain ⟨rest, hperm, hput⟩ := Store.put_saves hs
    have hmem := List.mem_of_getElem? hs
    -- what it writes from now on is what the run has saved
    have hC (now : EngineState) (hwork : s.work = .opening) (hopened : outcome = .opened now) :
        Written sha256 retain (as ++ [.resume i outcome]) s.file
          (save sha256 s.taken now s.savedAt) := by
      obtain ⟨hsave, hcount⟩ := hst.begun s hmem
      refine ⟨s.taken, s.savedAt, now, ⟨as, st, i, hopened ▸ List.prefix_rfl, hsave, has, ?_⟩,
        hcount, rfl, rfl⟩
      rw [hs, ← hwork]
    obtain ⟨hok, hwork, hothers⟩ := hresumed.sound hdisk (hsaves s hmem) hC
    have hnodup : (s.file :: rest.map Save.file).Nodup :=
      (hperm.map Save.file).nodup_iff.mp hdistinct
    refine ⟨hok, fun x hx => ?_, fun x hx => ?_, ?_⟩
    · rcases List.mem_append.mp ((hput disk work).mem_iff.mp hx) with hx | hx
      · obtain ⟨w, hw, rfl⟩ := Option.map_eq_some_iff.mp (Option.mem_toList.mp hx)
        exact hwork w hw
      · have hne : x.file ≠ s.file := fun heq =>
          (List.nodup_cons.mp hnodup).1 (heq ▸ List.mem_map_of_mem hx)
        exact (hsaves x (hperm.mem_iff.mpr (List.mem_cons_of_mem _ hx))).frame
          (hothers _ (not_isSnapshot_tmpPath _) fun heq => hne (tmpPath_injective heq))
    · rcases List.mem_append.mp ((hput disk work).mem_iff.mp hx) with hx | hx
      · obtain ⟨w, -, rfl⟩ := Option.map_eq_some_iff.mp (Option.mem_toList.mp hx)
        exact hbegun s hmem
      · exact hbegun x (hperm.mem_iff.mpr (List.mem_cons_of_mem _ hx))
    · refine ((hput disk work).map Save.file).nodup_iff.mpr ?_
      cases work with
      | none => exact (List.nodup_cons.mp hnodup).2
      | some w => exact hnodup
  | crash =>
    exact ⟨hdisk, fun s hs => absurd hs List.not_mem_nil, fun s hs => absurd hs List.not_mem_nil,
      List.nodup_nil⟩
  | powerLoss back lost =>
    exact ⟨hdisk.powerLoss back lost, fun s hs => absurd hs List.not_mem_nil,
      fun s hs => absurd hs List.not_mem_nil, List.nodup_nil⟩

theorem sound_run {as : List Action} {st : Store} (hfresh : Along (step sha256 retain) Fresh .init as)
    (hrun : runs (step sha256 retain) .init as = some st) : Sound sha256 retain as st := by
  refine runs_history (I := fun as st => Along (step sha256 retain) Fresh .init as →
    Sound sha256 retain as st) (fun _ => sound_init) (fun as a t u has h hs halong => ?_) hrun hfresh
  obtain ⟨hfirst, hlast⟩ := halong.of_append
  exact sound_step (hlast t has).1 has h (hs hfirst)

/-! What pruning leaves -/

def Disk.snapshots (d : Disk) : Finset String := (list d.names.keys).toFinset

theorem Disk.mem_snapshots {d : Disk} {f : String} :
    f ∈ d.snapshots ↔ (∃ fd, d.names.get? f = some fd) ∧ isSnapshot f := by
  rw [snapshots, List.mem_toFinset, mem_list, OrdMap.mem_keys_iff]

theorem Disk.snapshots_openFile (d : Disk) {n : String} (hn : ¬ isSnapshot n) :
    (d.openFile n).1.snapshots = d.snapshots := by
  ext f
  rw [mem_snapshots, mem_snapshots, openFile]
  refine and_congr_left fun hf => ?_
  have hne : f ≠ n := fun heq => hn (heq ▸ hf)
  cases d.names.get? n with
  | some fd => rfl
  | none =>
    show (∃ fd, (d.names.set n d.inodes.length).get? f = some fd) ↔ _
    rw [OrdMap.get?_set_ne _ hne]

theorem Disk.snapshots_rename (d : Disk) {n f : String} (hn : ¬ isSnapshot n) (hf : isSnapshot f)
    (fd : ℕ) : (d.change ((d.names.erase n).set f fd)).snapshots = insert f d.snapshots := by
  ext g
  rw [Finset.mem_insert, mem_snapshots, mem_snapshots]
  show (∃ i, ((d.names.erase n).set f fd).get? g = some i) ∧ _ ↔ _
  by_cases hg : g = f
  · rw [hg, OrdMap.get?_set_self]
    exact iff_of_true ⟨⟨fd, rfl⟩, hf⟩ (Or.inl rfl)
  · rw [OrdMap.get?_set_ne _ hg, or_iff_right hg]
    refine and_congr_left fun hsnap => ?_
    rw [OrdMap.get?_erase, if_neg fun heq : g = n => hn (heq ▸ hsnap)]

theorem Disk.snapshots_unlink (d : Disk) (f : String) :
    (d.unlink f).snapshots = d.snapshots.erase f := by
  ext g
  rw [Finset.mem_erase, mem_snapshots, mem_snapshots]
  show (∃ i, (d.names.erase f).get? g = some i) ∧ _ ↔ _
  rw [OrdMap.get?_erase]
  by_cases hg : g = f
  · simp [hg]
  · rw [if_neg hg]
    exact (and_iff_right hg).symm

theorem prune_stale (stale : List String) {w : Work} (h : w ∈ prune stale) : w.stale = stale := by
  cases stale with
  | nil => cases h
  | cons file stale =>
    obtain rfl := Option.some.inj h
    rfl

/-- There are `retain` newer ones. -/
def Outnumbered (retain : ℕ) (d : Disk) (f : String) : Prop :=
  retain ≤ above codeUnits f d.snapshots

/-- Every file that a prune is about to unlink is outnumbered. -/
def Pruned (retain : ℕ) (st : Store) : Prop :=
  ∀ s ∈ st.saves, ∀ f ∈ s.work.stale, Outnumbered retain st.disk f

/-- A step of a save whose stale files are outnumbered removes only such a file,
and leaves enough newer ones of every other. -/
theorem Resumed.outnumbered {d d' : Disk} {s : Save} {outcome : Outcome} {work : Option Work}
    (h : Resumed sha256 retain d s outcome d' work)
    (hstale : ∀ f ∈ s.work.stale, Outnumbered retain d f) :
    (∀ f, Outnumbered retain d f → Outnumbered retain d' f) ∧
      (∀ f ∈ d.snapshots, f ∈ d'.snapshots ∨ Outnumbered retain d' f) ∧
      ∀ w ∈ work, ∀ f ∈ w.stale, Outnumbered retain d' f := by
  have hsame {d' : Disk} (heq : d'.snapshots = d.snapshots) (f : String) :
      Outnumbered retain d' f ↔ Outnumbered retain d f := by
    rw [Outnumbered, heq, Outnumbered]
  have htmp : ¬ isSnapshot (tmpPath s.file) := not_isSnapshot_tmpPath _
  cases h with
  | opened now hwork =>
    have heq := d.snapshots_openFile htmp
    refine ⟨fun f => (hsame heq f).mpr, fun f hf => Or.inl (heq ▸ hf), ?_⟩
    rintro _ ⟨⟩ f hf
    cases hf
  | written hwork =>
    refine ⟨fun f hf => hf, fun f hf => Or.inl hf, ?_⟩
    rintro _ ⟨⟩ f hf
    cases hf
  | synced hwork =>
    refine ⟨fun f hf => hf, fun f hf => Or.inl hf, ?_⟩
    rintro _ ⟨⟩ f hf
    cases hf
  | @renamed fd hwork hfd =>
    have heq := d.snapshots_rename htmp (isSnapshot_fileName s.taken.appliedCount s.savedAt) fd
    have hsub : d.snapshots ⊆
        (d.change ((d.names.erase (tmpPath s.file)).set s.file fd)).snapshots :=
      heq ▸ Finset.subset_insert _ _
    refine ⟨fun f hf => hf.trans (above_mono hsub f), fun f hf => Or.inl (hsub hf), ?_⟩
    rintro _ ⟨⟩ f hf
    cases hf
  | listed hwork =>
    refine ⟨fun f hf => hf, fun f hf => Or.inl hf, fun w hw f hf => ?_⟩
    rw [prune_stale _ hw] at hf
    exact above_of_mem_drop (list_pairwise d.names.nodup) hf
  | unlisted hwork => exact ⟨fun f hf => hf, fun f hf => Or.inl hf, fun w hw => nomatch hw⟩
  | @unlinked file stale failed hwork =>
    rw [hwork] at hstale
    have hfile := hstale file List.mem_cons_self
    have hrest : ∀ w ∈ prune stale, ∀ f ∈ w.stale, Outnumbered retain d f := fun w hw f hf =>
      hstale f (List.mem_cons_of_mem _ (prune_stale _ hw ▸ hf))
    cases failed with
    | true => exact ⟨fun f hf => hf, fun f hf => Or.inl hf, hrest⟩
    | false =>
      have herase (f : String) (hf : Outnumbered retain d f) :
          Outnumbered retain (d.unlink file) f := by
        rw [Outnumbered, d.snapshots_unlink]
        exact above_erase hfile hf
      refine ⟨herase, fun f hf => ?_, fun w hw f hf => herase f (hrest w hw f hf)⟩
      by_cases heq : f = file
      · exact Or.inr (herase f (heq ▸ hfile))
      · exact Or.inl (d.snapshots_unlink file ▸ Finset.mem_erase.mpr ⟨heq, hf⟩)
  | error hwork hnone => exact ⟨fun f hf => hf, fun f hf => Or.inl hf, fun w hw => nomatch hw⟩

theorem pruned_step {st st' : Store} {a : Action} (h : step sha256 retain st a = some st')
    (hst : Pruned retain st) : Pruned retain st' := by
  cases step_cases h with
  | save taken savedAt =>
    intro s hs f hf
    rcases List.mem_append.mp hs with hs | hs
    · exact hst s hs f hf
    · obtain rfl := List.mem_singleton.mp hs
      cases hf
  | @resume i outcome s disk work hs hresumed =>
    obtain ⟨rest, hperm, hput⟩ := Store.put_saves hs
    obtain ⟨hkeep, -, hwork⟩ := hresumed.outnumbered (hst s (List.mem_of_getElem? hs))
    intro x hx f hf
    rcases List.mem_append.mp ((hput disk work).mem_iff.mp hx) with hx | hx
    · obtain ⟨w, hw, rfl⟩ := Option.map_eq_some_iff.mp (Option.mem_toList.mp hx)
      exact hwork w hw f hf
    · exact hkeep f (hst x (hperm.mem_iff.mpr (List.mem_cons_of_mem _ hx)) f hf)
  | crash => exact fun s hs => absurd hs List.not_mem_nil
  | powerLoss back lost => exact fun s hs => absurd hs List.not_mem_nil

def Action.isPowerLoss : Action → Bool
  | .powerLoss _ _ => true
  | _ => false

/-- A snapshot is there until `retain` newer ones are. -/
theorem kept_step {st st' : Store} {a : Action} (h : step sha256 retain st a = some st')
    (ha : a.isPowerLoss = false) (hst : Pruned retain st) {f : String}
    (hf : f ∈ st.disk.snapshots ∨ Outnumbered retain st.disk f) :
    f ∈ st'.disk.snapshots ∨ Outnumbered retain st'.disk f := by
  cases step_cases h with
  | save taken savedAt => exact hf
  | resume hs hresumed =>
    obtain ⟨hkeep, hthere, -⟩ := hresumed.outnumbered (hst _ (List.mem_of_getElem? hs))
    rcases hf with hf | hf
    · exact hthere f hf
    · exact Or.inr (hkeep f hf)
  | crash => exact hf
  | powerLoss back lost => cases ha

theorem DiskOK.read {C : String → Json → Prop} {d : Disk} (h : DiskOK C d) {f : String}
    (hf : f ∈ list d.names.keys) : ∃ content ∈ d.read f, C f content := by
  obtain ⟨hkey, hsnap⟩ := mem_list.mp hf
  obtain ⟨fd, hfd⟩ := (d.names.mem_keys_iff f).mp hkey
  obtain ⟨x, hx, -, content, hcontent, hdata⟩ := h.whole _ List.mem_cons_self f fd hsnap hfd
  refine ⟨content, ?_, hcontent⟩
  rw [Option.mem_def, Disk.read, hfd]
  exact (congrArg (· >>= Inode.data) hx).trans hdata

theorem load_count {f : String} {taken now : EngineState} {savedAt : ℕ} {l : LoadedSnapshot}
    (h : l ∈ load sha256 f (save sha256 taken now savedAt)) :
    l.state.appliedCount = taken.appliedCount := by
  rw [load_save] at h
  split_ifs at h
  · cases h
  · obtain rfl := Option.some.inj h
    rfl

theorem Disk.mem_files {d : Disk} {f : String} {content : Json} :
    (f, content) ∈ d.files ↔ f ∈ list d.names.keys ∧ d.read f = some content := by
  constructor
  · intro h
    obtain ⟨g, hg, h⟩ := List.mem_filterMap.mp h
    obtain ⟨_, hread, heq⟩ := Option.map_eq_some_iff.mp h
    obtain ⟨rfl, rfl⟩ := Prod.mk.inj heq
    exact ⟨hg, hread⟩
  · rintro ⟨hf, hread⟩
    refine List.mem_filterMap.mpr ⟨f, hf, ?_⟩
    rw [hread]
    rfl

/-- A load takes no older snapshot than any that passes. -/
theorem DiskOK.loadLatest {as : List Action} {d : Disk} (h : DiskOK (Written sha256 retain as) d)
    {f : String} (hf : f ∈ list d.names.keys) {content : Json} (hc : content ∈ d.read f)
    {l : LoadedSnapshot} (hl : l ∈ load sha256 f content) :
    ∃ l' ∈ loadLatest sha256 d.files, l.state.appliedCount ≤ l'.state.appliedCount := by
  have hmem : (f, content) ∈ d.files := Disk.mem_files.mpr ⟨hf, hc⟩
  have hsorted : d.files.Pairwise fun x y => codeUnits y.1 < codeUnits x.1 := by
    refine List.pairwise_filterMap.mpr ((list_pairwise d.names.nodup).imp ?_)
    rintro f g hlt _ hx _ hy
    obtain ⟨_, -, rfl⟩ := Option.map_eq_some_iff.mp hx
    obtain ⟨_, -, rfl⟩ := Option.map_eq_some_iff.mp hy
    exact hlt
  cases hlatest : SnapshotStore.loadLatest sha256 d.files with
  | none =>
    have hnone := List.findSome?_eq_none_iff.mp hlatest _ hmem
    rw [Option.mem_def.mp hl] at hnone
    cases hnone
  | some l' =>
    obtain ⟨before, ⟨f', content'⟩, after, heq, hl', hbefore⟩ :=
      List.findSome?_eq_some_iff.mp hlatest
    refine ⟨l', rfl, ?_⟩
    have hmem' : (f', content') ∈ d.files := heq ▸ List.mem_append_right _ List.mem_cons_self
    obtain ⟨hg, hread⟩ := Disk.mem_files.mp hmem'
    obtain ⟨_, hcontent, taken, savedAt, now, -, hcount, rfl, rfl⟩ := h.read hf
    obtain ⟨_, hcontent', taken', savedAt', now', -, -, rfl, rfl⟩ := h.read hg
    obtain rfl := Option.some.inj (hcontent.symm.trans hc)
    obtain rfl := Option.some.inj (hcontent'.symm.trans hread)
    rw [load_count hl, load_count hl']
    refine not_lt.mp fun hlt => ?_
    have hname := fileName_lt hlt hcount savedAt' savedAt
    rw [heq] at hmem hsorted
    rcases List.mem_append.mp hmem with hm | hm
    · have hnone := hbefore _ hm
      rw [Option.mem_def.mp hl] at hnone
      cases hnone
    · rcases List.mem_cons.mp hm with hm | hm
      · rw [(Prod.mk.inj hm).1] at hname
        exact lt_irrefl _ hname
      · have hlater := (List.pairwise_cons.mp (List.pairwise_append.mp hsorted).2.1).1 _ hm
        exact lt_asymm hname hlater

theorem pruned_run {as : List Action} {s : Store}
    (has : runs (step sha256 retain) .init as = some s) : Pruned retain s :=
  runs_invariant (I := Pruned retain) (fun _ _ _ _ h hu => pruned_step h hu)
    (fun _ hx => absurd hx List.not_mem_nil) (Along.mem (step sha256 retain) .init as) has

theorem kept_run {as : List Action} {s t : Store} (hrun : runs (step sha256 retain) s as = some t)
    (has : ∀ a ∈ as, a.isPowerLoss = false) (hs : Pruned retain s) {f : String}
    (hf : f ∈ s.disk.snapshots) : f ∈ t.disk.snapshots ∨ Outnumbered retain t.disk f :=
  (runs_invariant
    (I := fun u => Pruned retain u ∧ (f ∈ u.disk.snapshots ∨ Outnumbered retain u.disk f))
    (fun _ a _ ha h hu => ⟨pruned_step h hu.1, kept_step h (has a ha) hu.1 hu.2⟩) ⟨hs, Or.inl hf⟩
    (Along.mem (step sha256 retain) s as) hrun).2

/-- In every run in which no two saves of one name are at work at once, and counters fit
the names: a listed snapshot holds what a save of the run has written under its name,
and a load takes the newest that passes; short of a power loss, one that was listed
still is, or `retain` newer ones are. -/
theorem snapshots_kept (sha256 : Json → String) (retain : ℕ) {as bs : List Action} {s t : Store}
    (hfresh : Along (step sha256 retain) Fresh .init (as ++ bs))
    (has : runs (step sha256 retain) .init as = some s)
    (hbs : runs (step sha256 retain) s bs = some t) (hpower : ∀ a ∈ bs, a.isPowerLoss = false) :
    (∀ f ∈ list t.disk.names.keys, ∃ taken savedAt now,
      Saved sha256 retain (as ++ bs) taken savedAt now ∧
        f = fileName taken.appliedCount savedAt ∧
        t.disk.read f = some (save sha256 taken now savedAt)) ∧
    (∀ f ∈ list t.disk.names.keys, ∀ content ∈ t.disk.read f, ∀ l ∈ load sha256 f content,
      ∃ l' ∈ loadLatest sha256 t.disk.files, l.state.appliedCount ≤ l'.state.appliedCount) ∧
    ∀ f ∈ list s.disk.names.keys,
      f ∈ list t.disk.names.keys ∨ retain ≤ above codeUnits f t.disk.snapshots := by
  have hrun : runs (step sha256 retain) .init (as ++ bs) = some t := by
    rw [runs_append, has]
    exact hbs
  have hsound := sound_run hfresh hrun
  refine ⟨fun f hf => ?_, fun f hf content hc l hl => hsound.disk.loadLatest hf hc hl,
    fun f hf => ?_⟩
  · obtain ⟨_, hread, taken, savedAt, now, hsaved, -, hname, rfl⟩ := hsound.disk.read hf
    exact ⟨taken, savedAt, now, hsaved, hname, hread⟩
  · exact (kept_run hbs hpower (pruned_run has) (List.mem_toFinset.mpr hf)).imp_left
      List.mem_toFinset.mp

end SnapshotStore

namespace Fixture

open SnapshotStore

/-- Two saves, before and after the first user, the second begun while the first is at
work. The first one is over. -/
def overlappingSaves : List SnapshotStore.Action :=
  [.save (createState MARKET) 100, .resume 0 (.opened (createState MARKET)),
    .save (Engine.run (createState MARKET) fundedUser).1 200,
    .resume 1 (.opened (Engine.run (createState MARKET) fundedUser).1), .resume 0 .written,
    .resume 0 .synced, .resume 0 .renamed, .resume 0 (.listed false)]

def secondSave : List SnapshotStore.Action :=
  [.resume 0 .written, .resume 0 .synced, .resume 0 .renamed, .resume 0 (.listed false),
    .resume 0 (.unlinked false)]

end Fixture

namespace SnapshotStore

open Fixture in
/-- With room for one, the second snapshot takes the place of the first. -/
theorem snapshots_kept_second : ∃ s t,
    runs (step (fun _ => "") 1) .init overlappingSaves = some s ∧
    runs (step (fun _ => "") 1) s secondSave = some t ∧
    list s.disk.names.keys = ["snapshot-000000000000-100.json"] ∧
    list t.disk.names.keys = ["snapshot-000000000001-200.json"] ∧
    (∀ f ∈ list t.disk.names.keys, ∃ taken savedAt now,
      Saved (fun _ => "") 1 (overlappingSaves ++ secondSave) taken savedAt now ∧
        f = fileName taken.appliedCount savedAt ∧
        t.disk.read f = some (save (fun _ => "") taken now savedAt)) ∧
    (∀ f ∈ list t.disk.names.keys, ∀ content ∈ t.disk.read f, ∀ l ∈ load (fun _ => "") f content,
      ∃ l' ∈ loadLatest (fun _ => "") t.disk.files,
        l.state.appliedCount ≤ l'.state.appliedCount) ∧
    ∀ f ∈ list s.disk.names.keys,
      f ∈ list t.disk.names.keys ∨ 1 ≤ above codeUnits f t.disk.snapshots := by
  have hsome : ((runs (step (fun _ => "") 1) .init overlappingSaves).bind fun s =>
      ((runs (step (fun _ => "") 1) s secondSave).filter fun t =>
        list s.disk.names.keys = ["snapshot-000000000000-100.json"] ∧
          list t.disk.names.keys = ["snapshot-000000000001-200.json"])).isSome := by
    decide +kernel
  obtain ⟨t, ht⟩ := Option.isSome_iff_exists.mp hsome
  obtain ⟨s, hs, ht⟩ := Option.bind_eq_some_iff.mp ht
  obtain ⟨ht, hlists⟩ := Option.filter_eq_some_iff.mp ht
  obtain ⟨hlist, hlist'⟩ := of_decide_eq_true hlists
  exact ⟨s, t, hs, ht, hlist, hlist',
    snapshots_kept (fun _ => "") 1 (by decide +kernel) hs ht (by decide +kernel)⟩

end SnapshotStore

end Perps
