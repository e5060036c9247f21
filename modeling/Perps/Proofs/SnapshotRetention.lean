import Perps.Proofs.SnapshotFiles

/-! Only the newest snapshots are kept. From the listing of a prune on, as long as
no prune fails and nothing crashes, at most `retain` snapshots are there but for those
that are about to be unlinked, and one for each save that has yet to prune. -/

namespace Perps

open Lib

namespace SnapshotStore

variable {sha256 : Json → String} {retain : ℕ}

def Action.succeeds : Action → Bool
  | .resume _ (.listed true) => false
  | .resume _ (.unlinked true) => false
  | .crash => false
  | .powerLoss _ _ => false
  | _ => true

/-- The files that saves are about to unlink. -/
def pending (saves : List Save) : Finset String := (saves.flatMap fun s => s.work.stale).toFinset

def Bounded (retain : ℕ) (d : Disk) (saves : List Save) : Prop :=
  (d.snapshots \ pending saves).card ≤ retain + saves.countP fun s => s.work.isListing

theorem Bounded.perm {d : Disk} {xs ys : List Save} (h : xs.Perm ys) :
    Bounded retain d xs ↔ Bounded retain d ys := by
  rw [Bounded, Bounded, pending, pending, h.countP_eq,
    List.toFinset_eq_of_perm _ _ (h.flatMap_right _)]

theorem pending_cons (s : Save) (xs : List Save) :
    pending (s :: xs) = s.work.stale.toFinset ∪ pending xs := by
  rw [pending, List.flatMap_cons, List.toFinset_append]
  rfl

/-- A save that is neither about to list nor to unlink does not count. -/
theorem Bounded.skip {d : Disk} {s : Save} {xs : List Save} (hstale : s.work.stale = [])
    (hlisting : s.work.isListing = false) : Bounded retain d (s :: xs) ↔ Bounded retain d xs := by
  rw [Bounded, Bounded, pending_cons, hstale, List.toFinset_nil, Finset.empty_union,
    List.countP_cons_of_neg (by simp [hlisting])]

/-- The saves after a step of one of them. -/
def resumed (s : Save) (work : Option Work) (rest : List Save) : List Save :=
  (work.map fun w => { s with work := w }).toList ++ rest

theorem pending_prune (s : Save) (stale : List String) (rest : List Save) :
    pending (resumed s (prune stale) rest) = stale.toFinset ∪ pending rest := by
  cases stale with
  | nil => simp [resumed, prune]
  | cons file stale => exact pending_cons _ _

theorem bounded_listed {d : Disk} (s : Save) (rest : List Save) :
    Bounded retain d (resumed s (prune ((list d.names.keys).drop retain)) rest) := by
  refine le_trans ?_ (Nat.le_add_right _ _)
  calc (d.snapshots \ pending (resumed s (prune ((list d.names.keys).drop retain)) rest)).card
      ≤ ((list d.names.keys).take retain).toFinset.card := Finset.card_le_card fun f hf => by
        obtain ⟨hf, hstale⟩ := Finset.mem_sdiff.mp hf
        rw [pending_prune, Finset.mem_union, not_or, List.mem_toFinset] at hstale
        rw [Disk.snapshots, List.mem_toFinset] at hf
        rw [List.mem_toFinset]
        rw [← List.take_append_drop retain (list d.names.keys)] at hf
        exact (List.mem_append.mp hf).resolve_right hstale.1
    _ ≤ ((list d.names.keys).take retain).length := List.toFinset_card_le _
    _ ≤ retain := List.length_take_le _ _

theorem Resumed.bounded {d d' : Disk} {s : Save} {rest : List Save} {i : ℕ} {outcome : Outcome}
    {work : Option Work} (h : Resumed sha256 retain d s outcome d' work)
    (ha : (Action.resume i outcome).succeeds = true) (hs : Bounded retain d (s :: rest)) :
    Bounded retain d' (resumed s work rest) := by
  have htmp : ¬ isSnapshot (tmpPath s.file) := not_isSnapshot_tmpPath _
  have hskip {work : Work} (hwork : s.work = work) (hstale : work.stale = [])
      (hlisting : work.isListing = false) : Bounded retain d rest :=
    (Bounded.skip (hwork ▸ hstale) (hwork ▸ hlisting)).mp hs
  cases h with
  | opened now hwork =>
    have hrest := hskip hwork rfl rfl
    refine (Bounded.skip rfl rfl).mpr ?_
    rw [Bounded, d.snapshots_openFile htmp]
    exact hrest
  | written hwork =>
    exact (Bounded.skip rfl rfl).mpr (hskip hwork rfl rfl)
  | synced hwork =>
    exact (Bounded.skip rfl rfl).mpr (hskip hwork rfl rfl)
  | @renamed fd hwork hfd =>
    have hrest : Bounded retain d rest := hskip hwork rfl rfl
    show Bounded retain _ ({ s with work := .listing } :: rest)
    have hfile : isSnapshot s.file := isSnapshot_fileName _ _
    rw [Bounded, d.snapshots_rename htmp hfile, pending_cons,
      List.countP_cons_of_pos rfl]
    calc (insert s.file d.snapshots \ (([] : List String).toFinset ∪ pending rest)).card
        ≤ (insert s.file (d.snapshots \ pending rest)).card :=
          Finset.card_le_card fun f hf => by
            simp only [List.toFinset_nil, Finset.empty_union, Finset.mem_sdiff,
              Finset.mem_insert] at hf ⊢
            exact hf.1.imp_right fun h => ⟨h, hf.2⟩
      _ ≤ (d.snapshots \ pending rest).card + 1 := Finset.card_insert_le _ _
      _ ≤ _ := by
        rw [Bounded] at hrest
        omega
  | listed hwork => exact bounded_listed s rest
  | unlisted hwork => cases ha
  | @unlinked file stale failed hwork =>
    cases failed with
    | true => cases ha
    | false =>
      have hpending : pending (s :: rest) = insert file (stale.toFinset ∪ pending rest) := by
        rw [pending_cons, hwork, Work.stale, List.toFinset_cons, Finset.insert_union]
      have hcount : (resumed s (prune stale) rest).countP (fun s => s.work.isListing) =
          (s :: rest).countP fun s => s.work.isListing := by
        rw [List.countP_cons_of_neg (by simp [hwork, Work.isListing])]
        cases stale with
        | nil => rfl
        | cons file stale => exact List.countP_cons_of_neg (by simp [Work.isListing])
      show Bounded retain (d.unlink file) _
      rw [Bounded, hpending] at hs
      rw [Bounded, d.snapshots_unlink, hcount, pending_prune]
      refine (Finset.card_le_card fun f hf => ?_).trans hs
      simp only [Finset.mem_sdiff, Finset.mem_erase, Finset.mem_insert, not_or] at hf ⊢
      exact ⟨hf.1.2, hf.1.1, hf.2⟩
  | error hwork hstale => exact (Bounded.skip hstale hwork).mp hs

def Store.Bounded (retain : ℕ) (st : Store) : Prop :=
  SnapshotStore.Bounded retain st.disk st.saves

theorem bounded_step {st st' : Store} {a : Action} (h : step sha256 retain st a = some st')
    (ha : a.succeeds = true) (hst : st.Bounded retain) : st'.Bounded retain := by
  cases step_cases h with
  | save taken savedAt =>
    exact (Bounded.perm List.perm_append_comm).mpr
      ((Bounded.skip rfl rfl).mpr hst)
  | @resume i outcome s disk work hs hresumed =>
    obtain ⟨rest, hperm, hput⟩ := Store.put_saves hs
    exact (Bounded.perm (hput disk work)).mpr (hresumed.bounded ha ((Bounded.perm hperm).mp hst))
  | crash => cases ha
  | powerLoss back lost => cases ha

theorem bounded_prune {st st' : Store} {i : ℕ}
    (h : step sha256 retain st (.resume i (.listed false)) = some st') : st'.Bounded retain := by
  cases step_cases h with
  | @resume _ _ s disk work hs hresumed =>
    obtain ⟨rest, -, hput⟩ := Store.put_saves hs
    cases hresumed with
    | listed hwork => exact (Bounded.perm (hput _ _)).mpr (bounded_listed s rest)

theorem bounded_run {as : List Action} {s t : Store}
    (hrun : runs (step sha256 retain) s as = some t) (has : ∀ a ∈ as, a.succeeds = true)
    (hs : s.Bounded retain) : t.Bounded retain :=
  runs_invariant (I := Store.Bounded retain) (fun _ a _ ha h hu => bounded_step h (has a ha) hu) hs
    (Along.mem (step sha256 retain) s as) hrun

/-- When the saves are over that overlap with a prune, and since it listed there was no
crash, no power loss and no error of a prune, there are at most `retain` snapshots,
and whatever was removed is older than all of them. -/
theorem only_newest_retained (sha256 : Json → String) (retain : ℕ) {as bs : List Action} {i : ℕ}
    {s t : Store} (has : runs (step sha256 retain) .init as = some s)
    (hbs : runs (step sha256 retain) s (.resume i (.listed false) :: bs) = some t)
    (hsucceed : ∀ a ∈ bs, a.succeeds = true) (hidle : t.saves = []) :
    t.disk.snapshots.card ≤ retain ∧
      ∀ f ∈ s.disk.snapshots, f ∉ t.disk.snapshots → ∀ g ∈ t.disk.snapshots,
        codeUnits f < codeUnits g := by
  obtain ⟨u, hu, hrest⟩ := Option.bind_eq_some_iff.mp hbs
  have hend : t.Bounded retain := bounded_run hrest hsucceed (bounded_prune hu)
  rw [Store.Bounded, hidle] at hend
  have hcard : t.disk.snapshots.card ≤ retain := by simpa [Bounded, pending] using hend
  refine ⟨hcard, fun f hf hgone g hg => all_above ?_ hcard hg⟩
  refine (kept_run hbs (fun a ha => ?_) (pruned_run has) hf).resolve_left hgone
  rcases List.mem_cons.mp ha with rfl | ha
  · rfl
  · cases a with
    | powerLoss back lost => cases hsucceed _ ha
    | _ => rfl

end SnapshotStore

namespace Fixture

open SnapshotStore

def saveSteps (taken : EngineState) (savedAt : ℕ) : List SnapshotStore.Action :=
  [.save taken savedAt, .resume 0 (.opened taken), .resume 0 .written, .resume 0 .synced,
    .resume 0 .renamed, .resume 0 (.listed false)]

/-- The second save crashes before it prunes, the third comes to its prune. -/
def threeSaves : List SnapshotStore.Action :=
  saveSteps (createState MARKET) 100 ++
    (saveSteps (Engine.run (createState MARKET) fundedUser).1 200).take 5 ++ [.crash] ++
    (saveSteps (Engine.run (createState MARKET) (fundedUser ++ laterDeposit)).1 300).take 5

end Fixture

namespace SnapshotStore

open Fixture in
theorem only_newest_retained_third : ∃ s t,
    runs (step (fun _ => "") 1) .init threeSaves = some s ∧
    runs (step (fun _ => "") 1) s [.resume 0 (.listed false), .resume 0 (.unlinked false),
      .resume 0 (.unlinked false)] = some t ∧
    s.disk.snapshots.card = 3 ∧ t.disk.snapshots.card ≤ 1 ∧
    ∀ f ∈ s.disk.snapshots, f ∉ t.disk.snapshots → ∀ g ∈ t.disk.snapshots,
      codeUnits f < codeUnits g := by
  obtain ⟨s, hs⟩ : ∃ s, runs (step (fun _ => "") 1) .init threeSaves = some s :=
    Option.isSome_iff_exists.mp (by decide +kernel)
  obtain ⟨t, ht⟩ : ∃ t, runs (step (fun _ => "") 1) .init (threeSaves ++
      [.resume 0 (.listed false), .resume 0 (.unlinked false), .resume 0 (.unlinked false)]) =
        some t := Option.isSome_iff_exists.mp (by decide +kernel)
  have hcard : (runs (step (fun _ => "") 1) .init threeSaves).map (fun s => s.disk.snapshots.card) =
      some 3 := by decide +kernel
  have hidle : (runs (step (fun _ => "") 1) .init (threeSaves ++
      [.resume 0 (.listed false), .resume 0 (.unlinked false), .resume 0 (.unlinked false)])).map
        (fun t => t.saves.length) = some 0 := by decide +kernel
  rw [hs] at hcard
  rw [ht] at hidle
  rw [runs_append, hs] at ht
  exact ⟨s, t, hs, ht, Option.some.inj hcard, only_newest_retained (fun _ => "") 1 hs ht
    (by decide) (List.length_eq_zero_iff.mp (Option.some.inj hidle))⟩

end SnapshotStore

end Perps
