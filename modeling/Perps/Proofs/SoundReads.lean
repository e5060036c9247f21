import Perps.Proofs.QueryReads
import Perps.Proofs.LiveEngines
import Perps.Proofs.BalanceSplit
import Perps.Proofs.PositionRecords
import Perps.Proofs.BookDeltas

/-! What a live read brings is in order: the depth of a book that is sorted and not
crossed, a balance that adds up, a position record that is well formed. -/

namespace Perps

open Lib Engine

/-- A depth snapshot of at most so many levels a side. -/
structure DepthOK (levels : ℕ) (book : BookSnapshot) : Prop where
  bids : book.bids.Pairwise fun x y => x.1 > y.1
  asks : book.asks.Pairwise fun x y => x.1 < y.1
  positive : ∀ x ∈ book.bids ++ book.asks, 0 < x.2
  uncrossed : ∀ b ∈ book.bids, ∀ a ∈ book.asks, b.1 < a.1
  bids_short : book.bids.length ≤ levels
  asks_short : book.asks.length ≤ levels

theorem depthOK_snapshot {s : EngineState} (h : BookOK s) (levels : ℕ) :
    DepthOK levels (snapshot s levels) where
  bids := by
    refine List.Pairwise.map _ (fun l m hlm => ?_) ((h.bids.sorted).sublist (List.take_sublist _ _))
    exact of_decide_eq_true hlm
  asks := by
    refine List.Pairwise.map _ (fun l m hlm => ?_) ((h.asks.sorted).sublist (List.take_sublist _ _))
    exact of_decide_eq_true hlm
  positive x hx := by
    rcases List.mem_append.mp hx with hx | hx
    · obtain ⟨l, hl, rfl⟩ := List.mem_map.mp hx
      exact levelQuantity_pos (h.bids.levels l (List.mem_of_mem_take hl))
    · obtain ⟨l, hl, rfl⟩ := List.mem_map.mp hx
      exact levelQuantity_pos (h.asks.levels l (List.mem_of_mem_take hl))
  uncrossed b hb a ha := by
    obtain ⟨l, hl, rfl⟩ := List.mem_map.mp hb
    obtain ⟨m, hm, rfl⟩ := List.mem_map.mp ha
    exact h.uncrossed l (List.mem_of_mem_take hl) m (List.mem_of_mem_take hm)
  bids_short := by
    unfold snapshot
    rw [List.length_map]
    exact List.length_take_le _ _
  asks_short := by
    unfold snapshot
    rw [List.length_map]
    exact List.length_take_le _ _

/-! Engine invariants, in the runtime -/

/-- The events of the log meet the condition. -/
def LogMeets (C : EngineInputEvent → Prop) (log : InputLog) : Prop :=
  ∀ y ∈ log.entries, ∀ e, decodeInputEvent y.data = some e → C e

theorem LogMeets.narrow {C : EngineInputEvent → Prop} {log log' : InputLog} (h : LogMeets C log')
    (hsub : log.entries ⊆ log'.entries) : LogMeets C log := fun y hy => h y (hsub hy)

theorem recordsOK_core {market : MarketConfig} {s t : EngineState} (hc : SameCore s t)
    (h : RecordsOK market s) : RecordsOK market t := by
  have hresting : t.resting = s.resting := by
    unfold EngineState.resting
    rw [hc.bids, hc.asks]
  refine ⟨hc.market.trans h.market_eq, sameCore_book hc h.book, keysOK_of_pos h.keys hc.pos, ?_,
    h.records.congr hc.bal hc.pos⟩
  rw [hresting]
  exact h.resting

namespace EngineRuntime

/-- An invariant of the engine holds of all engines that live, if the log meets its condition. -/
theorem rules_of_invariant {market : MarketConfig} {C : EngineInputEvent → Prop}
    {I : EngineState → Prop} (hinit : I (createState market))
    (hcore : ∀ s t, SameCore s t → I s → I t) (hsame : ∀ s t, SameUpToOrder s t → I s → I t)
    (hprocess : ∀ s e id, C e → I s → I (Engine.process s e id).1) :
    EngineRules market fun log t => LogMeets C log → I t where
  init _ _ := hinit
  add hadd h hmeets := h (hmeets.narrow fun _ hy => (Log.mem_of_add hadd).mpr (Or.inl hy))
  same h hI hmeets := hsame _ _ h (hI hmeets)
  skip id h hmeets := hcore _ _ (sameCore_lastInputId _ id) (h hmeets)
  process hy he h hmeets := hprocess _ _ _ (hmeets _ hy _ he) (h hmeets)

variable {cfg : Config} {as : List Action} {s : System}

theorem log_grows {t : System} (hrun : runs (step cfg) s as = some t) :
    s.log.entries ⊆ t.log.entries := by
  refine runs_history (I := fun _ t => s.log.entries ⊆ t.log.entries) (List.Subset.refl _)
    (fun _ _ t u _ h ht => List.Subset.trans ht ?_) hrun
  cases step_cases h with
  | add hlog => exact fun y hy => (Log.mem_of_add hlog).mpr (Or.inl hy)
  | _ => exact List.Subset.refl _

theorem live_bookOK (hrun : runs (step cfg) .init as = some s) : ∀ m ∈ s.memory, BookOK m.engine := by
  have hrules : EngineRules cfg.market fun log t => LogMeets engineInputEventSchema log → BookOK t :=
    rules_of_invariant (bookOK_createState cfg.market) (fun _ _ => sameCore_book)
      (fun _ _ => sameUpToOrder_book) fun _ _ id he h => bookOK_process h he id
  refine fun m hm => (lives_run hrules hrun).running m hm fun y hy e he => ?_
  exact (decodeWith_eq_some.mp he).2.2

theorem live_split (hrun : runs (step cfg) .init as = some s) (hlog : LogMeets MarginOnGrid s.log) :
    ∀ m ∈ s.memory, AllAccounts (fun _ => SplitOK) m.engine := by
  have hrules : EngineRules cfg.market fun log t => LogMeets MarginOnGrid log →
      BookOK t ∧ KeysOK t ∧ AllAccounts (fun _ => SplitOK) t := by
    refine rules_of_invariant ⟨bookOK_createState cfg.market, keysOK_createState cfg.market, ?_⟩
      (fun s t hc h => ⟨sameCore_book hc h.1, keysOK_of_pos h.2.1 hc.pos, h.2.2.congr hc.bal hc.pos⟩)
      (fun s t hsame h => ⟨sameUpToOrder_book hsame h.1, keysOK_of_pos h.2.1 hsame.pos,
        h.2.2.congr hsame.bal hsame.pos⟩)
      fun s e id he h => ⟨bookOK_process h.1 he.1 id, keysOK_step h.2.1 e id,
        process_split h.2.2 h.2.1 h.1 he id⟩
    exact fun _ => ⟨grid_zero, grid_zero, (zero_add 0).symm, le_rfl, grid_zero⟩
  exact fun m hm => ((lives_run hrules hrun).running m hm hlog).2.2

theorem live_records (hrun : runs (step cfg) .init as = some s)
    (hlog : LogMeets QuantityOnGrid s.log) : ∀ m ∈ s.memory, RecordsOK cfg.market m.engine := by
  have hrules : EngineRules cfg.market fun log t => LogMeets QuantityOnGrid log →
      RecordsOK cfg.market t :=
    rules_of_invariant (recordsOK_createState cfg.market) (fun _ _ => recordsOK_core)
      (fun s t hsame h => h.restored hsame) fun s e id he h => h.process he id
  exact fun m hm => (lives_run hrules hrun).running m hm hlog

end EngineRuntime

namespace Queries

variable {ι : Type}

/-- The steps of the runtime in a run of the system. -/
def runtimeOf (as : List (Action ι)) : List EngineRuntime.Action :=
  as.filterMap fun
    | .runtime a => some a
    | _ => none

theorem runtimeOf_append (as bs : List (Action ι)) :
    runtimeOf (as ++ bs) = runtimeOf as ++ runtimeOf bs := List.filterMap_append

variable [DecidableEq ι] {cfg : EngineRuntime.Config}

theorem runtime_runs {as : List (Action ι)} {s : System ι}
    (hrun : runs (step cfg) System.init as = some s) :
    runs (EngineRuntime.step cfg) .init (runtimeOf as) = some s.runtime := by
  refine runs_history
    (I := fun as s => runs (EngineRuntime.step cfg) .init (runtimeOf as) = some s.runtime) rfl
    (fun as a t u _ h ht => ?_) hrun
  unfold runtimeOf at ht ⊢
  rw [List.filterMap_append]
  cases step_cases h with
  | runtime hruntime =>
    show runs (EngineRuntime.step cfg) .init (_ ++ [_]) = _
    rw [runs_concat, ht]
    exact hruntime
  | server | client =>
    show runs (EngineRuntime.step cfg) .init (_ ++ []) = _
    rw [List.append_nil]
    exact ht

/-- What may come of a query. -/
def ReadOK (market : MarketConfig) (log : InputLog) : QueryInput → QueryData → Prop
  | .getOrderbook _ levels, .orderbook book =>
    DepthOK ((levels.map fun n => n.num.toNat).getD 20) book
  | .getBalance _, .balance b =>
    LogMeets MarginOnGrid log → b.total = b.free + b.locked ∧ 0 ≤ b.locked
  | .getPosition _, .position p => LogMeets QuantityOnGrid log → WellFormedRecord market p
  | _, _ => False

theorem readOK_answer {as : List EngineRuntime.Action} {u : EngineRuntime.System}
    (hrun : runs (EngineRuntime.step cfg) .init as = some u) {m : EngineRuntime.Memory}
    (hm : u.memory = some m) {q : QueryInput} {data : QueryData} (h : q.answer m.engine = some data) :
    ReadOK cfg.market u.log q data := by
  cases q with
  | getBalance userId =>
    obtain rfl := Option.some.inj h
    intro hlog
    have hsplit := EngineRuntime.live_split hrun hlog m hm userId
    exact ⟨hsplit.total_eq, hsplit.locked_nonneg⟩
  | getPosition userId =>
    obtain ⟨p, hp, rfl⟩ := Option.map_eq_some_iff.mp h
    exact fun hlog => (EngineRuntime.live_records hrun hlog m hm).wellFormed hp
  | getOrderbook symbol levels =>
    obtain rfl := Option.some.inj h
    exact depthOK_snapshot (EngineRuntime.live_bookOK hrun m hm) _

theorem ReadOK.widen {market : MarketConfig} {log log' : InputLog} {q : QueryInput}
    {data : QueryData} (h : ReadOK market log q data) (hsub : log.entries ⊆ log'.entries) :
    ReadOK market log' q data := by
  unfold ReadOK at h ⊢
  split at h
  · exact h
  · exact fun hlog => h (hlog.narrow hsub)
  · exact fun hlog => h (hlog.narrow hsub)
  · exact h

/-- Every answer of a live read fits what was asked and is in order, in every run. -/
theorem reads_sound (cfg : EngineRuntime.Config) {as : List (Action ι)} {s : System ι}
    (hfresh : FreshIds as) (hrun : runs (step cfg) System.init as = some s) {c : ι} {corr : String}
    {data : QueryData} (h : (corr, some data) ∈ (s.clients c).answers) :
    ∃ q, .client c (.ask corr q) ∈ as ∧ ReadOK cfg.market s.runtime.log q data := by
  obtain ⟨q, before, during, after, u, m, rfl, hu, -, hm, hanswer⟩ :=
    ((traced_run hfresh hrun).clients c).told corr data h
  refine ⟨q, by simp, (readOK_answer (runtime_runs hu) hm hanswer).widen ?_⟩
  have hall := runtime_runs hrun
  rw [runtimeOf_append, runs_append, runtime_runs hu] at hall
  exact EngineRuntime.log_grows hall

end Queries

namespace Fixture

/-- The best bid of two is asked for. -/
def depthRun : List (Queries.Action Unit) :=
  [.runtime (.add newUser),
    .runtime (.add ⟨⟨2, 0⟩, some (place "u" "b1" .Bid .LIMIT 100 2 1 200)⟩),
    .runtime (.add ⟨⟨3, 0⟩, some (place "u" "b2" .Bid .LIMIT 101 1 1 101)⟩),
    .runtime (.recover []), .server .read, .client () .read,
    .client () (.ask "q1" (.getOrderbook "BTCUSDT" (some 1))),
    .client () (.enqueue "q1" ⟨1, 0⟩ .ok), .server .receive, .server .answer,
    .server (.reply ⟨2, 0⟩ .ok), .client () .receive]

end Fixture

namespace Queries

open Fixture in
theorem reads_sound_depth :
    ∃ s, runs (step CONFIG) System.init depthRun = some s ∧
      ∃ data, ("q1", some data) ∈ (s.clients ()).answers ∧
        ∃ q, .client () (.ask "q1" q) ∈ depthRun ∧ ReadOK MARKET s.runtime.log q data := by
  have hfacts : ∃ s ∈ runs (step CONFIG) System.init depthRun,
      ∃ x ∈ (s.clients ()).answers, x.1 = "q1" ∧ x.2.isSome := by decide +kernel
  obtain ⟨s, hs, ⟨corr, answer⟩, hmem, rfl, hsome⟩ := hfacts
  obtain ⟨data, rfl⟩ := Option.isSome_iff_exists.mp hsome
  have hfresh : FreshIds depthRun := by
    unfold FreshIds
    decide
  exact ⟨s, hs, data, hmem, reads_sound CONFIG hfresh hs hmem⟩

end Queries

end Perps
