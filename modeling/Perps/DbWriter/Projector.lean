import Perps.Lib.Feed
import Perps.Streams.Ids
import Perps.Events.Output

/-! The projection of the engine's outputs into the database: the tables, with
the columns that `project` writes, one transaction for each event, and what a
sequence of projected events leaves in every row. -/

namespace Perps

open Lib

namespace DbWriter

/-- `enum status` of the schema. -/
inductive Status where
  | PENDING
  | OPEN
  | PARTIALLYFILLED
  | FILLED
  | CANCELLED
  | REJECTED
  | CLOSE
  deriving DecidableEq, Repr

structure OrderRow where
  status : Status
  filledQuantity : ℤ
  avgFillPrice : ℤ
  deriving DecidableEq, Repr

structure WalletRow where
  id : String
  balance : ℤ
  freeBalance : ℤ
  lockedBalance : ℤ
  deriving DecidableEq, Repr

structure PositionRow where
  size : ℤ
  entryPrice : ℤ
  margin : ℤ
  leverage : ℤ
  liquidationPrice : ℤ
  realizedPnl : ℤ
  unrealizedPnl : ℤ
  markPrice : ℤ
  deriving DecidableEq, Repr

structure FillRow where
  makerId : String
  takerId : String
  makerOrderId : String
  takerOrderId : String
  quantity : ℤ
  price : ℤ
  deriving DecidableEq, Repr

/-- The rows of the consumer `db-poller` and the tables it writes: orders by id,
wallets and positions by user, fills by trade. -/
structure Db where
  processedEvents : List String
  lastEventId : Option StreamId
  orders : OrdMap String OrderRow
  wallets : OrdMap String WalletRow
  positions : OrdMap String PositionRow
  fills : OrdMap String FillRow

/-- `Math.round`. -/
def r (x : ℚ) : ℤ := ⌊x + 1 / 2⌋

def statusMap : OrderStatus → Status
  | .OPEN => .OPEN
  | .PARTIAL => .PARTIALLYFILLED
  | .FILLED => .FILLED
  | .CANCELLED => .CANCELLED
  | .REJECTED => .REJECTED

/-- `update(..).catch(() => {})`: a row that does not exist is passed over. -/
def updateRow {ρ : Type} (table : OrdMap String ρ) (key : String) (f : ρ → ρ) : OrdMap String ρ :=
  match table.get? key with
  | some row => table.set key (f row)
  | none => table

def walletId (tx : Db) (userId : String) : Option String :=
  (tx.wallets.get? userId).map WalletRow.id

def positionRow (p : PositionUpdated) : PositionRow where
  size := r p.size
  entryPrice := r p.entryPrice
  margin := r p.margin
  leverage := r p.leverage
  liquidationPrice := r p.liqPrice
  realizedPnl := r p.realizedPnl
  unrealizedPnl := r p.unrealizedPnl
  markPrice := r p.markPrice

/-- `none` where the database refuses the write: a fill refers to its two orders. The
numbers are taken to be in the range of their columns. -/
def applyEvent (tx : Db) (evt : EngineOutputEvent) : Option Db :=
  match evt.payload with
  | .orderAccepted p =>
    some { tx with
      orders := updateRow tx.orders p.orderId fun row =>
        { row with
          status := statusMap p.status
          filledQuantity := r p.filledQuantity
          avgFillPrice := if p.avgFillPrice > 0 then r p.avgFillPrice else row.avgFillPrice } }
  | .orderRejected p =>
    some { tx with
      orders := updateRow tx.orders p.orderId fun row => { row with status := .REJECTED } }
  | .orderCancelled p =>
    some { tx with
      orders := updateRow tx.orders p.orderId fun row => { row with status := .CANCELLED } }
  | .tradeExecuted p =>
    match walletId tx p.makerUserId, walletId tx p.takerUserId with
    | some makerWallet, some takerWallet =>
      if tx.fills.has p.tradeId then some tx
      else if tx.orders.has p.makerOrderId && tx.orders.has p.takerOrderId then
        some { tx with
          fills := tx.fills.set p.tradeId
            { makerId := makerWallet
              takerId := takerWallet
              makerOrderId := p.makerOrderId
              takerOrderId := p.takerOrderId
              quantity := r p.quantity
              price := r p.price } }
      else none
    | _, _ => some tx
  | .positionUpdated p =>
    match walletId tx p.userId with
    | some _ => some { tx with positions := tx.positions.set p.userId (positionRow p) }
    | none => some tx
  | .balanceUpdated p =>
    some { tx with
      wallets := updateRow tx.wallets p.userId fun row =>
        { row with balance := r p.total, freeBalance := r p.free, lockedBalance := r p.locked } }
  | .positionLiquidated _ | .orderBookDelta _ | .orderBookSnapshot _ | .commandRejected _ => some tx

/-- One event in one transaction; `none` if it throws, and the database is as it
was. An event that is on record is taken for done. -/
def project (db : Db) (evt : EngineOutputEvent) (streamId : StreamId) : Option Db :=
  if evt.eventId ∈ db.processedEvents then some db
  else do
    let tx ← applyEvent { db with processedEvents := db.processedEvents ++ [evt.eventId] } evt
    some { tx with lastEventId := some streamId }

/-- Every entry once, in order. -/
def projectAll (db : Db) : List (EngineOutputEvent × StreamId) → Option Db
  | [] => some db
  | x :: xs => project db x.1 x.2 >>= fun db => projectAll db xs

/-! The range of the columns -/

/-- An `Int` column has 32 bits. -/
def FitsInt (x : ℤ) : Prop := -2 ^ 31 ≤ x ∧ x < 2 ^ 31

instance (x : ℤ) : Decidable (FitsInt x) := inferInstanceAs (Decidable (_ ∧ _))

abbrev IntColumn : Type := { x : ℤ // FitsInt x }

/-- What the event puts into `Int` columns. -/
def intValues (evt : EngineOutputEvent) : List ℤ :=
  match evt.payload with
  | .orderAccepted p =>
    r p.filledQuantity :: if p.avgFillPrice > 0 then [r p.avgFillPrice] else []
  | .tradeExecuted p => [r p.quantity, r p.price]
  | .positionUpdated p =>
    [r p.size, r p.entryPrice, r p.margin, r p.leverage, r p.liqPrice, r p.realizedPnl,
      r p.unrealizedPnl, r p.markPrice]
  | .balanceUpdated p => [r p.total, r p.free, r p.locked]
  | _ => []

def Storable (evt : EngineOutputEvent) : Prop := ∀ x ∈ intValues evt, FitsInt x

instance (evt : EngineOutputEvent) : Decidable (Storable evt) :=
  inferInstanceAs (Decidable (∀ x ∈ intValues evt, FitsInt x))

/-- The event's write of a number that its column does not take ends the transaction. An
`upsert` throws; the `catch` after an `update` goes on, but if the database has `aborted`
the transaction, the next write throws. -/
def throws (aborted : Bool) (db : Db) (evt : EngineOutputEvent) : Bool :=
  match evt.payload with
  | .tradeExecuted p => (walletId db p.makerUserId).isSome && (walletId db p.takerUserId).isSome
  | .positionUpdated p => (walletId db p.userId).isSome
  | _ => aborted

/-- `project` on columns with their range. -/
def projectInt (aborted : Bool) (db : Db) (evt : EngineOutputEvent) (streamId : StreamId) :
    Option Db :=
  if Storable evt ∨ evt.eventId ∈ db.processedEvents then project db evt streamId
  else if throws aborted db evt then none
  else some { db with
    processedEvents := db.processedEvents ++ [evt.eventId]
    lastEventId := some streamId }

def projectAllInt (aborted : Bool) (db : Db) : List (EngineOutputEvent × StreamId) → Option Db
  | [] => some db
  | x :: xs => projectInt aborted db x.1 x.2 >>= fun db => projectAllInt aborted db xs

/-- Events that are applied one after the other. -/
def applyAll (db : Db) (outs : List EngineOutputEvent) : Option Db := outs.foldlM applyEvent db

/-! What an event writes -/

def statusWrite (evt : EngineOutputEvent) : Option (String × Status) :=
  match evt.payload with
  | .orderAccepted p => some (p.orderId, statusMap p.status)
  | .orderRejected p => some (p.orderId, .REJECTED)
  | .orderCancelled p => some (p.orderId, .CANCELLED)
  | _ => none

def filledWrite (evt : EngineOutputEvent) : Option (String × ℤ) :=
  match evt.payload with
  | .orderAccepted p => some (p.orderId, r p.filledQuantity)
  | _ => none

def avgPriceWrite (evt : EngineOutputEvent) : Option (String × ℤ) :=
  match evt.payload with
  | .orderAccepted p => if p.avgFillPrice > 0 then some (p.orderId, r p.avgFillPrice) else none
  | _ => none

def walletWrite (evt : EngineOutputEvent) : Option (String × ℤ × ℤ × ℤ) :=
  match evt.payload with
  | .balanceUpdated p => some (p.userId, r p.total, r p.free, r p.locked)
  | _ => none

def positionWrite (evt : EngineOutputEvent) : Option (String × PositionRow) :=
  match evt.payload with
  | .positionUpdated p => some (p.userId, positionRow p)
  | _ => none

/-- The fill row of a trade whose users have wallets. -/
def fillWrite (db : Db) (evt : EngineOutputEvent) : Option (String × FillRow) :=
  match evt.payload with
  | .tradeExecuted p =>
    match walletId db p.makerUserId, walletId db p.takerUserId with
    | some makerWallet, some takerWallet =>
      some (p.tradeId,
        { makerId := makerWallet
          takerId := takerWallet
          makerOrderId := p.makerOrderId
          takerOrderId := p.takerOrderId
          quantity := r p.quantity
          price := r p.price })
    | _, _ => none
  | _ => none

section Rows

variable (es : List EngineOutputEvent)

/-- The order's row after the events. -/
def orderAfter (key : String) (row : OrderRow) : OrderRow where
  status := (newest key (es.filterMap statusWrite)).getD row.status
  filledQuantity := (newest key (es.filterMap filledWrite)).getD row.filledQuantity
  avgFillPrice := (newest key (es.filterMap avgPriceWrite)).getD row.avgFillPrice

/-- The user's wallet after the events. -/
def walletAfter (key : String) (row : WalletRow) : WalletRow :=
  match newest key (es.filterMap walletWrite) with
  | some (total, free, locked) =>
    { row with balance := total, freeBalance := free, lockedBalance := locked }
  | none => row

end Rows

/-- The tables of `db'` are what the events `es`, one after the other, make of
those of `db`. -/
structure TablesAfter (db : Db) (es : List EngineOutputEvent) (db' : Db) : Prop where
  orders : ∀ k, db'.orders.get? k = (db.orders.get? k).map (orderAfter es k)
  wallets : ∀ k, db'.wallets.get? k = (db.wallets.get? k).map (walletAfter es k)
  positions : ∀ k, db'.positions.get? k =
    (if db.wallets.has k then newest k (es.filterMap positionWrite) else none).or
      (db.positions.get? k)
  fills : ∀ k, db'.fills.get? k = (db.fills.get? k).or (oldest k (es.filterMap (fillWrite db)))

section After

variable {db db' db'' : Db} {es es' : List EngineOutputEvent} {evt : EngineOutputEvent}

theorem walletAfter_id (es : List EngineOutputEvent) (k : String) (row : WalletRow) :
    (walletAfter es k row).id = row.id := by
  unfold walletAfter
  split <;> rfl

/-- No event gives or takes a wallet. -/
theorem TablesAfter.walletId (h : TablesAfter db es db') (userId : String) :
    walletId db' userId = walletId db userId := by
  unfold DbWriter.walletId
  rw [h.wallets, Option.map_map]
  exact congrArg (Option.map · _) (funext fun row => walletAfter_id es userId row)

theorem TablesAfter.has_order (h : TablesAfter db es db') (id : String) :
    db'.orders.has id = db.orders.has id := by
  unfold OrdMap.has
  rw [h.orders, Option.isSome_map]

theorem TablesAfter.has_wallet (h : TablesAfter db es db') (userId : String) :
    db'.wallets.has userId = db.wallets.has userId := by
  unfold OrdMap.has
  rw [h.wallets, Option.isSome_map]

theorem TablesAfter.fillWrite (h : TablesAfter db es db') : fillWrite db' = fillWrite db := by
  funext evt
  unfold DbWriter.fillWrite
  simp only [h.walletId]

theorem TablesAfter.refl (db : Db) : TablesAfter db [] db where
  orders k := by cases h : db.orders.get? k <;> rfl
  wallets k := by cases h : db.wallets.get? k <;> rfl
  positions k := by simp [newest]
  fills k := by cases h : db.fills.get? k <;> rfl

theorem TablesAfter.trans (h : TablesAfter db es db') (h' : TablesAfter db' es' db'') :
    TablesAfter db (es ++ es') db'' where
  orders k := by
    rw [h'.orders, h.orders, Option.map_map]
    refine congrArg (Option.map · _) (funext fun row => ?_)
    simp only [Function.comp_apply, orderAfter, List.filterMap_append, newest_append,
      Option.getD_or]
  wallets k := by
    rw [h'.wallets, h.wallets, Option.map_map]
    refine congrArg (Option.map · _) (funext fun row => ?_)
    simp only [Function.comp_apply, walletAfter, List.filterMap_append, newest_append]
    cases newest k (es'.filterMap walletWrite) <;> cases newest k (es.filterMap walletWrite) <;> rfl
  positions k := by
    rw [h'.positions, h.positions, h.has_wallet, List.filterMap_append, newest_append]
    split_ifs
    · exact (Option.or_assoc).symm
    · rfl
  fills k := by
    rw [h'.fills, h.fills, h.fillWrite, List.filterMap_append, oldest_append, Option.or_assoc]

theorem get?_updateRow {ρ : Type} (table : OrdMap String ρ) (key : String) (f : ρ → ρ) (k : String) :
    (updateRow table key f).get? k =
      (table.get? k).map fun row => if k = key then f row else row := by
  unfold updateRow
  by_cases hk : k = key
  · subst hk
    cases h : table.get? k with
    | none => simp [h]
    | some row => simp
  · cases h : table.get? key with
    | none => simp [hk]
    | some row => simp [hk, OrdMap.get?_set]

theorem orderAfter_none (hs : statusWrite evt = none) (hf : filledWrite evt = none)
    (ha : avgPriceWrite evt = none) (k : String) : orderAfter [evt] k = id := by
  funext row
  simp [orderAfter, hs, hf, ha, newest]

theorem walletAfter_none (h : walletWrite evt = none) (k : String) : walletAfter [evt] k = id := by
  funext row
  simp [walletAfter, h, newest]

/-- An event that writes nothing. -/
theorem tablesAfter_none (tx : Db) (hs : statusWrite evt = none) (hf : filledWrite evt = none)
    (ha : avgPriceWrite evt = none) (hw : walletWrite evt = none) (hp : positionWrite evt = none)
    (hfill : fillWrite tx evt = none) : TablesAfter tx [evt] tx where
  orders k := by rw [orderAfter_none hs hf ha, Option.map_id, id]
  wallets k := by rw [walletAfter_none hw, Option.map_id, id]
  positions k := by simp [hp, newest]
  fills k := by simp [hfill, oldest]

/-- An event that updates one order. -/
theorem tablesAfter_order (tx : Db) {key : String} {f : OrderRow → OrderRow}
    (hf : ∀ k row, orderAfter [evt] k row = if k = key then f row else row)
    (hw : walletWrite evt = none) (hp : positionWrite evt = none) (hfill : fillWrite tx evt = none) :
    TablesAfter tx [evt] { tx with orders := updateRow tx.orders key f } where
  orders k := by
    rw [get?_updateRow]
    exact congrArg (Option.map · _) (funext fun row => (hf k row).symm)
  wallets k := by rw [walletAfter_none hw, Option.map_id, id]
  positions k := by simp [hp, newest]
  fills k := by simp [hfill, oldest]

theorem orderAfter_status {key : String} {st : Status} (hs : statusWrite evt = some (key, st))
    (hf : filledWrite evt = none) (ha : avgPriceWrite evt = none) (k : String) (row : OrderRow) :
    orderAfter [evt] k row = if k = key then { row with status := st } else row := by
  by_cases hk : k = key
  · simp [orderAfter, hs, hf, ha, newest, hk]
  · have hk' : ¬ key = k := fun h => hk h.symm
    simp [orderAfter, hs, hf, ha, newest, hk, hk']

/-- A wallet is written if it is there. -/
theorem tablesAfter_wallet (tx : Db) {p : BalanceUpdated} (hp : evt.payload = .balanceUpdated p) :
    TablesAfter tx [evt] { tx with
      wallets := updateRow tx.wallets p.userId fun row =>
        { row with balance := r p.total, freeBalance := r p.free, lockedBalance := r p.locked } } where
  orders k := by
    rw [orderAfter_none (by simp [statusWrite, hp]) (by simp [filledWrite, hp])
      (by simp [avgPriceWrite, hp]), Option.map_id, id]
  wallets k := by
    rw [get?_updateRow]
    refine congrArg (Option.map · _) (funext fun row => ?_)
    by_cases hk : k = p.userId
    · simp [walletAfter, walletWrite, hp, newest, hk]
    · have hk' : ¬ p.userId = k := fun h => hk h.symm
      simp [walletAfter, walletWrite, hp, newest, hk, hk']
  positions k := by simp [positionWrite, hp, newest]
  fills k := by simp [DbWriter.fillWrite, hp, oldest]

/-- A position is written if its user has a wallet. -/
theorem tablesAfter_position (tx : Db) {p : PositionUpdated} (hp : evt.payload = .positionUpdated p)
    {w : String} (hw : walletId tx p.userId = some w) :
    TablesAfter tx [evt] { tx with positions := tx.positions.set p.userId (positionRow p) } where
  orders k := by
    rw [orderAfter_none (by simp [statusWrite, hp]) (by simp [filledWrite, hp])
      (by simp [avgPriceWrite, hp]), Option.map_id, id]
  wallets k := by rw [walletAfter_none (by simp [walletWrite, hp]), Option.map_id, id]
  positions k := by
    have hhas : tx.wallets.has p.userId = true := by
      have hsome := congrArg Option.isSome hw
      rwa [walletId, Option.isSome_map] at hsome
    rw [OrdMap.get?_set]
    by_cases hk : k = p.userId
    · simp [positionWrite, hp, newest, hk, hhas]
    · have hk' : ¬ p.userId = k := fun h => hk h.symm
      simp [positionWrite, hp, newest, hk, hk']
  fills k := by simp [DbWriter.fillWrite, hp, oldest]

theorem tablesAfter_noWallet (tx : Db) {p : PositionUpdated} (hp : evt.payload = .positionUpdated p)
    (hw : walletId tx p.userId = none) : TablesAfter tx [evt] tx where
  orders k := by
    rw [orderAfter_none (by simp [statusWrite, hp]) (by simp [filledWrite, hp])
      (by simp [avgPriceWrite, hp]), Option.map_id, id]
  wallets k := by rw [walletAfter_none (by simp [walletWrite, hp]), Option.map_id, id]
  positions k := by
    have hhas : tx.wallets.has p.userId = false := by
      have hsome := congrArg Option.isSome hw
      rwa [walletId, Option.isSome_map] at hsome
    by_cases hk : p.userId = k
    · simp [← hk, hhas]
    · simp [positionWrite, hp, newest, hk]
  fills k := by simp [DbWriter.fillWrite, hp, oldest]

/-- A fill is recorded once. -/
theorem tablesAfter_fill (tx : Db) {p : TradeExecuted} (hp : evt.payload = .tradeExecuted p)
    {key : String} {row : FillRow} (hw : fillWrite tx evt = some (key, row)) :
    TablesAfter tx [evt]
      { tx with fills := if tx.fills.has key then tx.fills else tx.fills.set key row } where
  orders k := by
    rw [orderAfter_none (by simp [statusWrite, hp]) (by simp [filledWrite, hp])
      (by simp [avgPriceWrite, hp]), Option.map_id, id]
  wallets k := by rw [walletAfter_none (by simp [walletWrite, hp]), Option.map_id, id]
  positions k := by simp [positionWrite, hp, newest]
  fills k := by
    have hhas : tx.fills.has key = (tx.fills.get? key).isSome := rfl
    by_cases hk : k = key
    · subst hk
      cases hg : tx.fills.get? k <;> simp [hhas, hg, hw, oldest]
    · have hk' : ¬ key = k := fun h => hk h.symm
      cases hg : tx.fills.get? key <;> simp [hhas, hg, hw, oldest, hk, hk', OrdMap.get?_set]

theorem applyEvent_after {tx tx' : Db} (h : applyEvent tx evt = some tx') :
    TablesAfter tx [evt] tx' := by
  unfold applyEvent at h
  cases hp : evt.payload with
  | orderAccepted p =>
    rw [hp] at h
    obtain rfl := Option.some.inj h
    refine tablesAfter_order tx (fun k row => ?_) (by simp [walletWrite, hp])
      (by simp [positionWrite, hp]) (by simp [DbWriter.fillWrite, hp])
    by_cases hk : k = p.orderId
    · subst hk
      by_cases ha : p.avgFillPrice > 0 <;>
        simp [orderAfter, statusWrite, filledWrite, avgPriceWrite, hp, newest, ha]
    · have hk' : ¬ p.orderId = k := fun h => hk h.symm
      by_cases ha : p.avgFillPrice > 0 <;>
        simp [orderAfter, statusWrite, filledWrite, avgPriceWrite, hp, newest, hk, hk', ha]
  | orderRejected p =>
    rw [hp] at h
    obtain rfl := Option.some.inj h
    exact tablesAfter_order tx
      (orderAfter_status (by simp [statusWrite, hp]) (by simp [filledWrite, hp])
        (by simp [avgPriceWrite, hp]))
      (by simp [walletWrite, hp]) (by simp [positionWrite, hp]) (by simp [DbWriter.fillWrite, hp])
  | orderCancelled p =>
    rw [hp] at h
    obtain rfl := Option.some.inj h
    exact tablesAfter_order tx
      (orderAfter_status (by simp [statusWrite, hp]) (by simp [filledWrite, hp])
        (by simp [avgPriceWrite, hp]))
      (by simp [walletWrite, hp]) (by simp [positionWrite, hp]) (by simp [DbWriter.fillWrite, hp])
  | tradeExecuted p =>
    rw [hp] at h
    dsimp only at h
    have hnone (hfill : DbWriter.fillWrite tx evt = none) : TablesAfter tx [evt] tx :=
      tablesAfter_none tx (by simp [statusWrite, hp]) (by simp [filledWrite, hp])
        (by simp [avgPriceWrite, hp]) (by simp [walletWrite, hp]) (by simp [positionWrite, hp]) hfill
    cases hm : DbWriter.walletId tx p.makerUserId with
    | none =>
      rw [hm] at h
      obtain rfl := Option.some.inj h
      exact hnone (by simp [DbWriter.fillWrite, hp, hm])
    | some mw =>
      cases ht : DbWriter.walletId tx p.takerUserId with
      | none =>
        rw [hm, ht] at h
        obtain rfl := Option.some.inj h
        exact hnone (by simp [DbWriter.fillWrite, hp, hm, ht])
      | some tw =>
        have hw : DbWriter.fillWrite tx evt = some (p.tradeId,
            { makerId := mw
              takerId := tw
              makerOrderId := p.makerOrderId
              takerOrderId := p.takerOrderId
              quantity := r p.quantity
              price := r p.price }) := by
          simp [DbWriter.fillWrite, hp, hm, ht]
        have hfill := tablesAfter_fill tx hp hw
        rw [hm, ht] at h
        dsimp only at h
        split_ifs at h hfill with hhas horders
        · obtain rfl := Option.some.inj h
          exact hfill
        · obtain rfl := Option.some.inj h
          exact hfill
  | positionUpdated p =>
    rw [hp] at h
    dsimp only at h
    cases hw : DbWriter.walletId tx p.userId with
    | none =>
      rw [hw] at h
      obtain rfl := Option.some.inj h
      exact tablesAfter_noWallet tx hp hw
    | some w =>
      rw [hw] at h
      obtain rfl := Option.some.inj h
      exact tablesAfter_position tx hp hw
  | balanceUpdated p =>
    rw [hp] at h
    obtain rfl := Option.some.inj h
    exact tablesAfter_wallet tx hp
  | _ =>
    rw [hp] at h
    obtain rfl := Option.some.inj h
    exact tablesAfter_none tx (by simp [statusWrite, hp]) (by simp [filledWrite, hp])
      (by simp [avgPriceWrite, hp]) (by simp [walletWrite, hp]) (by simp [positionWrite, hp])
      (by simp [DbWriter.fillWrite, hp])

theorem applyEvent_processed {tx tx' : Db} (h : applyEvent tx evt = some tx') :
    tx'.processedEvents = tx.processedEvents := by
  unfold applyEvent at h
  cases hp : evt.payload with
  | tradeExecuted p =>
    rw [hp] at h
    dsimp only at h
    split at h
    · split_ifs at h
      · obtain rfl := Option.some.inj h
        rfl
      · obtain rfl := Option.some.inj h
        rfl
    · obtain rfl := Option.some.inj h
      rfl
  | positionUpdated p =>
    rw [hp] at h
    dsimp only at h
    split at h
    · obtain rfl := Option.some.inj h
      rfl
    · obtain rfl := Option.some.inj h
      rfl
  | _ =>
    rw [hp] at h
    obtain rfl := Option.some.inj h
    rfl

theorem fillWrite_trade {x : String × FillRow} (hx : x ∈ DbWriter.fillWrite db evt) :
    ∃ t, evt.payload = .tradeExecuted t ∧ x.2.makerOrderId = t.makerOrderId ∧
      x.2.takerOrderId = t.takerOrderId ∧ x.2.quantity = r t.quantity ∧
        x.2.price = r t.price := by
  unfold DbWriter.fillWrite at hx
  cases hp : evt.payload with
  | tradeExecuted t =>
    rw [hp] at hx
    dsimp only at hx
    split at hx
    · obtain rfl := Option.some.inj hx
      exact ⟨t, rfl, rfl, rfl, rfl, rfl⟩
    · cases hx
  | _ =>
    rw [hp] at hx
    cases hx

/-- The fill of the event is new and refers to an order that has no row. -/
def Refused (db : Db) (evt : EngineOutputEvent) : Prop :=
  ∃ x ∈ fillWrite db evt, db.fills.has x.1 = false ∧
    (db.orders.has x.2.makerOrderId && db.orders.has x.2.takerOrderId) = false

theorem applyEvent_eq_none (tx : Db) (evt : EngineOutputEvent) :
    applyEvent tx evt = none ↔ Refused tx evt := by
  unfold applyEvent Refused DbWriter.fillWrite
  cases evt.payload with
  | tradeExecuted p =>
    cases hm : DbWriter.walletId tx p.makerUserId with
    | none => simp [hm]
    | some mw =>
      cases ht : DbWriter.walletId tx p.takerUserId with
      | none => simp [hm, ht]
      | some tw =>
        cases hf : tx.fills.has p.tradeId <;> cases ho : tx.orders.has p.makerOrderId <;>
          simp [hm, ht, hf, ho]
  | positionUpdated p => cases h : DbWriter.walletId tx p.userId <;> simp [h]
  | _ => simp

theorem project_recorded {streamId : StreamId} (h : evt.eventId ∈ db.processedEvents) :
    project db evt streamId = some db := if_pos h

theorem project_eq_none {streamId : StreamId} (hnew : evt.eventId ∉ db.processedEvents) :
    project db evt streamId = none ↔ Refused db evt := by
  unfold project
  rw [if_neg hnew]
  refine Iff.trans ?_
    (applyEvent_eq_none { db with processedEvents := db.processedEvents ++ [evt.eventId] } evt)
  cases applyEvent { db with processedEvents := db.processedEvents ++ [evt.eventId] } evt with
  | none => exact iff_of_true rfl rfl
  | some tx => exact iff_of_false nofun nofun

theorem projectInt_of_storable (h : Storable evt) (aborted : Bool) (db : Db) (streamId : StreamId) :
    projectInt aborted db evt streamId = project db evt streamId := if_pos (Or.inl h)

theorem projectAllInt_of_storable {log : List (EngineOutputEvent × StreamId)}
    (h : ∀ x ∈ log, Storable x.1) (aborted : Bool) (db : Db) :
    projectAllInt aborted db log = projectAll db log := by
  induction log generalizing db with
  | nil => rfl
  | cons x xs ih =>
    rw [projectAllInt, projectAll, projectInt_of_storable (h x List.mem_cons_self)]
    exact congrArg (project db x.1 x.2).bind (funext fun db' =>
      ih (fun y hy => h y (List.mem_cons_of_mem _ hy)) db')

/-- What a first success leaves. -/
theorem project_new {streamId : StreamId} (hnew : evt.eventId ∉ db.processedEvents)
    (h : project db evt streamId = some db') :
    db'.processedEvents = db.processedEvents ++ [evt.eventId] ∧ TablesAfter db [evt] db' := by
  unfold project at h
  rw [if_neg hnew] at h
  obtain ⟨tx, htx, h⟩ := Option.bind_eq_some_iff.mp h
  obtain rfl := Option.some.inj h
  refine ⟨applyEvent_processed htx, ?_⟩
  have hafter := applyEvent_after htx
  exact ⟨hafter.orders, hafter.wallets, hafter.positions, hafter.fills⟩

/-- Where the orders of every trade have rows, no event is refused. -/
theorem applyAll_after (htrades : ∀ evt ∈ es, ∀ t, evt.payload = .tradeExecuted t →
      db.orders.has t.makerOrderId = true ∧ db.orders.has t.takerOrderId = true) :
    ∃ db', applyAll db es = some db' ∧ TablesAfter db es db' := by
  induction es generalizing db with
  | nil => exact ⟨db, rfl, .refl db⟩
  | cons evt es ih =>
    have hok : applyEvent db evt ≠ none := by
      intro hnone
      obtain ⟨x, hx, -, horders⟩ := (applyEvent_eq_none db evt).mp hnone
      obtain ⟨t, ht, hmaker, htaker, -⟩ := fillWrite_trade hx
      obtain ⟨h1, h2⟩ := htrades evt List.mem_cons_self t ht
      rw [hmaker, htaker, h1, h2] at horders
      cases horders
    obtain ⟨mid, hmid⟩ := Option.ne_none_iff_exists'.mp hok
    have hafter := applyEvent_after hmid
    have htrades' : ∀ evt' ∈ es, ∀ t, evt'.payload = .tradeExecuted t →
        mid.orders.has t.makerOrderId = true ∧ mid.orders.has t.takerOrderId = true := by
      intro evt' hevt t ht
      rw [hafter.has_order, hafter.has_order]
      exact htrades evt' (List.mem_cons_of_mem _ hevt) t ht
    obtain ⟨db', hdb, hrest⟩ := ih htrades'
    refine ⟨db', ?_, hafter.trans hrest⟩
    rw [applyAll, List.foldlM_cons, hmid]
    exact hdb

end After

end DbWriter

end Perps
