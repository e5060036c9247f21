import Perps.DbWriter.Projector
import Perps.Proofs.AccountEvents
import Perps.Proofs.BalanceSplit

/-! The wallet rows of the projection. The engine splits a total exactly into free and locked;
the row rounds the three amounts one by one, and the split is lost where the fractions of the
two parts carry. -/

namespace Perps

open Lib Engine DbWriter

def Whole (x : ℚ) : Prop := x.den = 1

instance (x : ℚ) : Decidable (Whole x) := inferInstanceAs (Decidable (_ = _))

theorem Whole.grid {x : ℚ} (h : Whole x) : Grid x := by
  rw [← Rat.den_eq_one_iff x |>.mp h]
  exact Grid.of_int _

/-- The amounts, prices, quantities, margins and leverages are integers. -/
def InputPayload.Integral : InputPayload → Prop
  | .userCreated p => Whole p.openingBalance
  | .balanceDeposited p => Whole p.amount
  | .orderPlace o => Whole o.price ∧ Whole o.quantity ∧ Whole o.margin ∧ Whole o.leverage
  | .orderCancel _ => True
  | .indexPriceUpdated p => Whole p.price

instance : DecidablePred InputPayload.Integral
  | .userCreated _ | .balanceDeposited _ | .indexPriceUpdated _ => inferInstanceAs (Decidable (Whole _))
  | .orderPlace _ => inferInstanceAs (Decidable (_ ∧ _))
  | .orderCancel _ => .isTrue trivial

/-- A valid event whose numbers are integers. -/
def IntegralEvent (e : EngineInputEvent) : Prop :=
  engineInputEventSchema e ∧ e.payload.Integral

instance : DecidablePred IntegralEvent := fun _ => inferInstanceAs (Decidable (_ ∧ _))

theorem IntegralEvent.marginOnGrid {e : EngineInputEvent} (h : IntegralEvent e) : MarginOnGrid e := by
  refine ⟨h.1, fun o ho => ?_⟩
  have hint := h.2
  rw [ho] at hint
  exact hint.2.2.1.grid

namespace Engine

/-- Every balance that a step sends out is split exactly. -/
theorem process_sent {s : EngineState} (h : AllAccounts (fun _ => SplitOK) s) (hkeys : KeysOK s)
    (hbook : BookOK s) {e : EngineInputEvent} (he : MarginOnGrid e) (id : StreamId)
    {out : EngineOutputEvent} (hout : out ∈ (process s e id).2) {p : BalanceUpdated}
    (hp : out.payload = .balanceUpdated p) : p.total = p.free + p.locked := by
  have hentry : (p.userId, some p) ∈
      ((process s e id).2.map EngineOutputEvent.payload).filterMap balanceEntry := by
    refine List.mem_filterMap.mpr ⟨out.payload, List.mem_map_of_mem hout, ?_⟩
    rw [hp]
    rfl
  have hstored := (process_announced hkeys e id).balances _ hentry
  obtain ⟨b, hb, hpayload⟩ := Option.map_eq_some_iff.mp hstored.symm
  have hsplit := (process_split h hkeys hbook he id p.userId).total_eq
  unfold EngineState.bal at hsplit
  rw [hb] at hsplit
  rw [← hpayload]
  exact hsplit

theorem reachable_split {market : MarketConfig} {s : EngineState}
    (h : Reachable MarginOnGrid market s) : AllAccounts (fun _ => SplitOK) s := by
  induction h with
  | init => exact fun _ => ⟨grid_zero, grid_zero, (zero_add 0).symm, le_rfl, grid_zero⟩
  | event hs e he id ih =>
    have hbook := reachable_bookOK (hs.mono fun _ he => he.1)
    exact process_split ih (reachable_keysOK hs) hbook he id
  | restored _ ht ih => exact ih.congr (restored_same ht).bal (restored_same ht).pos

theorem run_sent {s : EngineState} (h : AllAccounts (fun _ => SplitOK) s) (hkeys : KeysOK s)
    (hbook : BookOK s) {evs : List (EngineInputEvent × StreamId)} (hevs : RunOf MarginOnGrid evs)
    {out : EngineOutputEvent} (hout : out ∈ (run s evs).2) {p : BalanceUpdated}
    (hp : out.payload = .balanceUpdated p) : p.total = p.free + p.locked := by
  induction evs generalizing s with
  | nil => cases hout
  | cons x xs ih =>
    have hx := hevs x List.mem_cons_self
    rcases List.mem_append.mp hout with hnow | hlater
    · exact process_sent h hkeys hbook hx x.2 hnow hp
    · exact ih (process_split h hkeys hbook hx x.2) (keysOK_step hkeys x.1 x.2)
        (bookOK_process hbook hx.1 x.2) (fun y hy => hevs y (List.mem_cons_of_mem _ hy)) hlater

end Engine

namespace DbWriter

theorem r_add_iff (x y : ℚ) : r (x + y) = r x + r y ↔ ¬ Carries x y := roundHalfUp_add_iff x y

/-- The row that an event on a balance leaves. -/
theorem project_wallet {db : Db} {out : EngineOutputEvent} {p : BalanceUpdated}
    (hp : out.payload = .balanceUpdated p) (hnew : out.eventId ∉ db.processedEvents) {row : WalletRow}
    (hrow : db.wallets.get? p.userId = some row) (streamId : StreamId) :
    ∃ db', project db out streamId = some db' ∧ db'.wallets.get? p.userId =
      some { row with balance := r p.total, freeBalance := r p.free, lockedBalance := r p.locked } := by
  unfold project applyEvent
  rw [if_neg hnew, hp]
  refine ⟨_, rfl, ?_⟩
  dsimp only
  rw [get?_updateRow, hrow, Option.map_some, if_pos rfl]

end DbWriter

namespace Fixture

/-- The wallet of `t`, who has paid in. -/
def walletOfT : Db where
  processedEvents := []
  lastEventId := none
  orders := .empty
  wallets := OrdMap.empty.set "t" ⟨"w", 1000, 1000, 0⟩
  positions := .empty
  fills := .empty

/-- A long of two with an odd margin, half of which is closed. -/
def halfClosed : List (EngineInputEvent × StreamId) :=
  numbered [user "m" 10000, user "t" 1000,
    place "m" "a1" .Ask .LIMIT 100 2 1 1000, place "t" "b1" .Bid .LIMIT 100 2 2 101,
    place "m" "b2" .Bid .LIMIT 100 1 1 100, place "t" "a2" .Ask .LIMIT 100 1 1 100]

end Fixture

namespace DbWriter

/-- The row of a wallet adds up exactly if the fractions of what the engine sends as free and as
locked do not carry. -/
theorem wallet_row_adds_up_iff {market : MarketConfig} {s : EngineState}
    (hs : Reachable IntegralEvent market s) {evs : List (EngineInputEvent × StreamId)}
    (hevs : RunOf IntegralEvent evs) {out : EngineOutputEvent} (hout : out ∈ (run s evs).2)
    {p : BalanceUpdated} (hp : out.payload = .balanceUpdated p) {db : Db}
    (hnew : out.eventId ∉ db.processedEvents) {row : WalletRow}
    (hrow : db.wallets.get? p.userId = some row) (streamId : StreamId) :
    ∃ db' written, project db out streamId = some db' ∧
      db'.wallets.get? p.userId = some written ∧
      (written.balance = written.freeBalance + written.lockedBalance ↔ ¬ Carries p.free p.locked) := by
  obtain ⟨db', hproject, hwritten⟩ := project_wallet hp hnew hrow streamId
  have hs := hs.mono fun _ he => he.marginOnGrid
  have hbook := reachable_bookOK (hs.mono fun _ he => he.1)
  have htotal := run_sent (reachable_split hs) (reachable_keysOK hs) hbook
    (fun x hx => (hevs x hx).marginOnGrid) hout hp
  refine ⟨db', _, hproject, hwritten, ?_⟩
  dsimp only
  rw [htotal]
  exact r_add_iff p.free p.locked

open Fixture in
theorem wallet_row_adds_up_iff_half :
    ∃ out ∈ (run (createState MARKET) halfClosed).2,
      out.payload = .balanceUpdated ⟨"t", 1000, 1899 / 2, 101 / 2⟩ ∧
      ∃ db' written, project walletOfT out ⟨1, 0⟩ = some db' ∧
        db'.wallets.get? "t" = some written ∧
        (written.balance = written.freeBalance + written.lockedBalance ↔
          ¬ Carries (1899 / 2 : ℚ) (101 / 2)) := by
  have hsent : ∃ out ∈ (run (createState MARKET) halfClosed).2,
      out.payload = .balanceUpdated ⟨"t", 1000, 1899 / 2, 101 / 2⟩ := by decide +kernel
  obtain ⟨out, hout, hp⟩ := hsent
  have hrow : walletOfT.wallets.get? "t" = some ⟨"w", 1000, 1000, 0⟩ := by decide +kernel
  have hs : Reachable IntegralEvent MARKET (createState MARKET) := .init
  exact ⟨out, hout, hp, wallet_row_adds_up_iff hs (by decide +kernel) hout hp List.not_mem_nil hrow
    ⟨1, 0⟩⟩

open Fixture in
/-- Both halves are rounded up, and the row is one short. -/
theorem wallet_row_off_by_one :
    RunOf IntegralEvent halfClosed ∧ ∃ out ∈ (run (createState MARKET) halfClosed).2,
      out.payload = .balanceUpdated ⟨"t", 1000, 1899 / 2, 101 / 2⟩ ∧
      ((project walletOfT out ⟨1, 0⟩).bind fun db => db.wallets.get? "t") =
        some ⟨"w", 1000, 950, 51⟩ ∧ (1000 : ℤ) ≠ 950 + 51 := by
  decide +kernel

end DbWriter

end Perps
