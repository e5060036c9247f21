import Perps.Backend.Platform
import Perps.Proofs.Provenance
import Perps.Proofs.SoundReads

/-! The database comes first: a row is written before the command that names it goes out.
So the projection never lacks a row, and the tables agree with one another, through every
crash, loss and redelivery. It refuses nothing but positions that outgrow their columns. -/

namespace Perps

open Lib Engine

namespace Backend

/-! What the database holds -/

namespace Database

variable (db : Database)

/-- The order's row belongs to the user's wallet. -/
def Owns (orderId userId : String) : Prop :=
  ∃ p w, db.placed.get? orderId = some p ∧ db.tables.wallets.get? userId = some w ∧
    w.id = p.walletId

/-- The order is placed as its row says. -/
structure Records (o : PlaceOrder) (p : PlacedOrder) : Prop where
  row : db.placed.get? o.orderId = some p
  wallet : ∃ w, db.tables.wallets.get? o.userId = some w ∧ w.id = p.walletId
  orderType : p.orderType = o.orderType
  side : p.side = o.side
  quantity : ((p.quantity : ℤ) : ℚ) = o.quantity
  price : ((p.price : ℤ) : ℚ) = o.price

theorem Records.owns {db : Database} {o : PlaceOrder} {p : PlacedOrder} (h : db.Records o p) :
    db.Owns o.orderId o.userId := by
  obtain ⟨w, hw, hid⟩ := h.wallet
  exact ⟨p, w, h.row, hw, hid⟩

def registry : Registry where
  knows userId := ∃ w, db.tables.wallets.get? userId = some w
  owns := db.Owns
  placed o := ∃ p, db.Records o p
  knows_owner := fun ⟨_, w, _, hw, _⟩ => ⟨w, hw⟩
  owns_placed := fun ⟨_, hp⟩ => hp.owns
  whole := fun ⟨p, hp⟩ => ⟨p.quantity, by rw [div_one, hp.quantity]⟩

/-- Rows of orders stay as they are, and wallets keep their ids. -/
structure Grows (db db' : Database) : Prop where
  placed : ∀ id p, db.placed.get? id = some p → db'.placed.get? id = some p
  wallets : ∀ u w, db.tables.wallets.get? u = some w →
    ∃ w', db'.tables.wallets.get? u = some w' ∧ w'.id = w.id

variable {db db' : Database}

theorem Grows.refl (db : Database) : Grows db db :=
  ⟨fun _ _ hp => hp, fun _ w hw => ⟨w, hw, rfl⟩⟩

theorem Grows.owns (h : Grows db db') {orderId userId : String} (ho : db.Owns orderId userId) :
    db'.Owns orderId userId := by
  obtain ⟨p, w, hp, hw, hid⟩ := ho
  obtain ⟨w', hw', hid'⟩ := h.wallets userId w hw
  exact ⟨p, w', h.placed orderId p hp, hw', hid'.trans hid⟩

theorem Grows.records (h : Grows db db') {o : PlaceOrder} {p : PlacedOrder} (hr : db.Records o p) :
    db'.Records o p := by
  obtain ⟨w, hw, hid⟩ := hr.wallet
  obtain ⟨w', hw', hid'⟩ := h.wallets o.userId w hw
  exact { hr with row := h.placed o.orderId p hr.row, wallet := ⟨w', hw', hid'.trans hid⟩ }

theorem Grows.knows (h : Grows db db') {userId : String} (hu : db.registry.knows userId) :
    db'.registry.knows userId := by
  obtain ⟨w, hw⟩ := hu
  obtain ⟨w', hw', -⟩ := h.wallets userId w hw
  exact ⟨w', hw'⟩

theorem Grows.admits (h : Grows db db') {p : InputPayload} (hp : db.registry.Admits p) :
    db'.registry.Admits p := by
  cases p with
  | userCreated p => exact h.knows hp
  | balanceDeposited p => exact h.knows hp
  | orderPlace o => exact hp.imp fun _ hr => h.records hr
  | orderCancel c => exact h.owns hp
  | indexPriceUpdated p => trivial

end Database

/-- The fill as seen by the rows it refers to. -/
structure FillOK (db : Database) (row : DbWriter.FillRow) (maker taker : PlacedOrder) : Prop where
  maker_row : db.placed.get? row.makerOrderId = some maker
  taker_row : db.placed.get? row.takerOrderId = some taker
  maker_wallet : row.makerId = maker.walletId
  taker_wallet : row.takerId = taker.walletId
  maker_limit : maker.orderType = .LIMIT
  opposite : maker.side = maker_side taker.side
  price : row.price = maker.price
  taker_limit : taker.orderType = .LIMIT →
    match taker.side with
    | .Bid => row.price ≤ taker.price
    | .Ask => taker.price ≤ row.price
  positive : 0 < row.quantity
  maker_quantity : row.quantity ≤ maker.quantity
  taker_quantity : row.quantity ≤ taker.quantity

theorem FillOK.grow {db db' : Database} (h : db.Grows db') {row : DbWriter.FillRow}
    {maker taker : PlacedOrder} (hf : FillOK db row maker taker) : FillOK db' row maker taker :=
  { hf with
    maker_row := h.placed _ _ hf.maker_row
    taker_row := h.placed _ _ hf.taker_row }

/-- The tables agree with one another. -/
structure TablesOK (db : Database) : Prop where
  orders : ∀ id, db.tables.orders.has id = db.placed.has id
  fills : ∀ tradeId row, db.tables.fills.get? tradeId = some row →
    ∃ maker taker, FillOK db row maker taker
  positions : ∀ userId, db.tables.positions.has userId = true → db.registry.knows userId

theorem TablesOK.grow {db db' : Database} (h : TablesOK db) (hgrows : db.Grows db')
    (horders : ∀ id, db'.tables.orders.has id = db'.placed.has id)
    (hfills : db'.tables.fills = db.tables.fills)
    (hpositions : db'.tables.positions = db.tables.positions) : TablesOK db' where
  orders := horders
  fills tradeId row hrow := by
    rw [hfills] at hrow
    obtain ⟨maker, taker, hok⟩ := h.fills tradeId row hrow
    exact ⟨maker, taker, hok.grow hgrows⟩
  positions u hu := by
    rw [hpositions] at hu
    exact hgrows.knows (h.positions u hu)

/-! The projection -/

theorem round_int {x : ℚ} {k : ℤ} (h : x = k) : DbWriter.r x = k := by
  rw [h]
  exact roundHalfUp_intCast k

section Projection

variable {db : Database} {evt : EngineOutputEvent}

/-- The row of a trade that its orders allow. -/
theorem fillWrite_of_allows {t : TradeExecuted} {maker taker : PlaceOrder}
    (h : db.registry.Allows t maker taker) (hp : evt.payload = .tradeExecuted t) :
    ∃ row, DbWriter.fillWrite db.tables evt = some (t.tradeId, row) ∧
      ∃ pm pt, FillOK db row pm pt := by
  obtain ⟨pm, hm⟩ := h.maker_placed
  obtain ⟨pt, ht⟩ := h.taker_placed
  obtain ⟨wm, hwm, hmid⟩ := hm.wallet
  obtain ⟨wt, hwt, htid⟩ := ht.wallet
  obtain ⟨k, hk⟩ := h.whole
  rw [div_one] at hk
  have hprice : t.price = ((pm.price : ℤ) : ℚ) := h.price.trans hm.price.symm
  have hrow : DbWriter.fillWrite db.tables evt = some (t.tradeId,
      { makerId := wm.id
        takerId := wt.id
        makerOrderId := t.makerOrderId
        takerOrderId := t.takerOrderId
        quantity := DbWriter.r t.quantity
        price := DbWriter.r t.price }) := by
    unfold DbWriter.fillWrite DbWriter.walletId
    rw [hp]
    simp only [h.makerUserId, h.takerUserId, hwm, hwt, Option.map_some]
  have hpos := h.positive
  have hmq := h.maker_quantity
  have htq := h.taker_quantity
  rw [← hm.quantity] at hmq
  rw [← ht.quantity] at htq
  rw [hk] at hpos hmq htq
  refine ⟨_, hrow, pm, pt,
    { maker_row := by rw [h.makerOrderId]; exact hm.row
      taker_row := by rw [h.takerOrderId]; exact ht.row
      maker_wallet := hmid
      taker_wallet := htid
      maker_limit := hm.orderType.trans h.maker_limit
      opposite := by rw [hm.side, ht.side]; exact h.opposite
      price := round_int hprice
      taker_limit := fun hlimit => ?_
      positive := by rw [round_int hk]; exact_mod_cast hpos
      maker_quantity := by rw [round_int hk]; exact_mod_cast hmq
      taker_quantity := by rw [round_int hk]; exact_mod_cast htq }⟩
  have hcross := h.crosses
  rw [ht.orderType] at hlimit
  unfold crosses at hcross
  rw [hlimit, ← hm.price, ← ht.price, ← ht.side] at hcross
  dsimp only
  rw [round_int hprice]
  cases hside : pt.side <;> simpa [hside] using hcross

/-- What is vouched for does not lack a row. -/
theorem project_accepts (h : TablesOK db) (hv : db.registry.Vouches evt.payload)
    (streamId : StreamId) : ∃ tables, DbWriter.project db.tables evt streamId = some tables := by
  by_cases hnew : evt.eventId ∈ db.tables.processedEvents
  · exact ⟨db.tables, DbWriter.project_recorded hnew⟩
  · refine Option.ne_none_iff_exists'.mp fun hnone => ?_
    obtain ⟨x, hx, -, hmissing⟩ := (DbWriter.project_eq_none hnew).mp hnone
    obtain ⟨t, hp, -, -⟩ := DbWriter.fillWrite_trade hx
    rw [hp] at hv
    obtain ⟨maker, taker, hallows⟩ := hv
    obtain ⟨row, hrow, pm, pt, hok⟩ := fillWrite_of_allows hallows hp
    obtain rfl := Option.some.inj (hrow.symm.trans hx)
    have hhas {id : String} {p : PlacedOrder} (hid : db.placed.get? id = some p) :
        db.tables.orders.has id = true := by
      rw [h.orders, OrdMap.has, hid]
      rfl
    rw [hhas hok.maker_row, hhas hok.taker_row] at hmissing
    cases hmissing

/-- The numbers of a trade fit as those of its orders do. -/
theorem storable_trade (hv : db.registry.Vouches evt.payload) {t : TradeExecuted}
    (hp : evt.payload = .tradeExecuted t) : DbWriter.Storable evt := by
  rw [hp] at hv
  obtain ⟨maker, taker, hallows⟩ := hv
  obtain ⟨row, hrow, pm, pt, hok⟩ := fillWrite_of_allows hallows hp
  obtain ⟨t', ht', -, -, hquantity, hprice⟩ := DbWriter.fillWrite_trade hrow
  obtain rfl := DraftOutput.tradeExecuted.inj (hp.symm.trans ht')
  have hvalues : DbWriter.intValues evt = [row.quantity, row.price] := by
    rw [DbWriter.intValues, hp]
    exact (congrArg₂ (fun x y => [x, y]) hquantity hprice).symm
  intro x hx
  rw [hvalues] at hx
  rcases List.mem_pair.mp hx with rfl | rfl
  · have hmax := pm.quantity.property.2
    have hpos := hok.positive
    have hle := hok.maker_quantity
    exact ⟨by linarith, by linarith⟩
  · rw [hok.price]
    exact pm.price.property

/-- A position has a number that its column does not take, or an order or a wallet has one and
a failed `update` aborts the transaction. -/
def TooLarge (aborted : Bool) (evt : EngineOutputEvent) : Prop :=
  ¬ DbWriter.Storable evt ∧
    match evt.payload with
    | .positionUpdated _ => True
    | .orderAccepted _ | .balanceUpdated _ => aborted = true
    | _ => False

/-- What is vouched for is refused for the size of its numbers alone, and a trade never. -/
theorem projectInt_refuses (h : TablesOK db) (hv : db.registry.Vouches evt.payload)
    {streamId : StreamId} {aborted : Bool}
    (hnone : DbWriter.projectInt aborted db.tables evt streamId = none) : TooLarge aborted evt := by
  unfold DbWriter.projectInt at hnone
  split_ifs at hnone with hplain hthrows
  · obtain ⟨tables, htables⟩ := project_accepts h hv streamId
    rw [htables] at hnone
    cases hnone
  · rw [not_or] at hplain
    refine ⟨hplain.1, ?_⟩
    unfold DbWriter.throws at hthrows
    cases hp : evt.payload with
    | tradeExecuted t => exact absurd (storable_trade hv hp) hplain.1
    | positionUpdated p => trivial
    | orderAccepted p => simpa [hp] using hthrows
    | balanceUpdated p => simpa [hp] using hthrows
    -- the other events have no numbers
    | _ => exact absurd (by simp [DbWriter.Storable, DbWriter.intValues, hp]) hplain.1

/-- The projection of what is vouched for keeps the tables in agreement. -/
theorem project_keeps (h : TablesOK db) (hv : db.registry.Vouches evt.payload)
    {streamId : StreamId} {tables : DbWriter.Db}
    (hproject : DbWriter.project db.tables evt streamId = some tables) :
    db.Grows { db with tables := tables } ∧ TablesOK { db with tables := tables } := by
  by_cases hnew : evt.eventId ∈ db.tables.processedEvents
  · rw [DbWriter.project_recorded hnew] at hproject
    obtain rfl := Option.some.inj hproject
    exact ⟨.refl db, h⟩
  obtain ⟨-, hafter⟩ := DbWriter.project_new hnew hproject
  have hgrows : db.Grows { db with tables := tables } := by
    refine ⟨fun _ _ hp => hp, fun u w hw => ?_⟩
    refine ⟨DbWriter.walletAfter [evt] u w, ?_, DbWriter.walletAfter_id _ _ _⟩
    show tables.wallets.get? u = _
    rw [hafter.wallets, hw]
    rfl
  refine ⟨hgrows, fun id => (hafter.has_order id).trans (h.orders id), fun k row hrow => ?_,
    fun u hu => ?_⟩
  · -- a fill was there before, or is that of the trade
    have hrow' : (db.tables.fills.get? k).or
        (oldest k ([evt].filterMap (DbWriter.fillWrite db.tables))) = some row :=
      (hafter.fills k).symm.trans hrow
    rcases Option.or_eq_some_iff.mp hrow' with hold | ⟨-, hnewrow⟩
    · obtain ⟨maker, taker, hok⟩ := h.fills k row hold
      exact ⟨maker, taker, hok.grow hgrows⟩
    · cases hwrite : DbWriter.fillWrite db.tables evt with
      | none => simp [hwrite, oldest] at hnewrow
      | some x =>
        obtain ⟨t, hp, -, -⟩ := DbWriter.fillWrite_trade hwrite
        rw [hp] at hv
        obtain ⟨maker, taker, hallows⟩ := hv
        obtain ⟨row', hrow', pm, pt, hok⟩ := fillWrite_of_allows hallows hp
        obtain rfl := Option.some.inj (hrow'.symm.trans hwrite)
        have hfound : row' = row := by
          by_cases hk : t.tradeId = k
          · simpa [hwrite, oldest, hk] using hnewrow
          · simp [hwrite, oldest, hk] at hnewrow
        exact ⟨pm, pt, hfound ▸ hok.grow hgrows⟩
  · have hpos : tables.positions.has u = true := hu
    unfold OrdMap.has at hpos
    rw [hafter.positions] at hpos
    split_ifs at hpos with hhas
    · obtain ⟨w, hw⟩ := Option.isSome_iff_exists.mp hhas
      exact hgrows.knows ⟨w, hw⟩
    · rw [Option.none_or] at hpos
      exact hgrows.knows (h.positions u hpos)

/-- The projection of what is vouched for, with the range of the columns. -/
theorem projectInt_keeps (h : TablesOK db) (hv : db.registry.Vouches evt.payload)
    {streamId : StreamId} {aborted : Bool} {tables : DbWriter.Db}
    (hproject : DbWriter.projectInt aborted db.tables evt streamId = some tables) :
    db.Grows { db with tables := tables } ∧ TablesOK { db with tables := tables } := by
  unfold DbWriter.projectInt at hproject
  split_ifs at hproject
  · exact project_keeps h hv hproject
  · obtain rfl := Option.some.inj hproject
    refine ⟨?hgrows, h.grow ?hgrows h.orders rfl rfl⟩
    exact ⟨fun _ _ hp => hp, fun _ w hw => ⟨w, hw, rfl⟩⟩

end Projection

/-! The controllers -/

/-- An order that a response names has a row. -/
def ResponseOK (db : Database) (r : Response) : Prop :=
  ∀ id, ("orderId", Json.str id) ∈ r.body → db.placed.has id = true

/-- What a task is about to send or to write is backed by rows. -/
def TaskOK (db : Database) : Task → Prop
  | .createOrder userId walletId _ => ∃ w, db.tables.wallets.get? userId = some w ∧ w.id = walletId
  | .fireCommand cmd response => db.registry.Admits cmd.payload ∧ ResponseOK db response
  | .submitCommand cmd submitted =>
    db.registry.Admits cmd.payload ∧ db.placed.has submitted.orderId = true
  | .reply submitted => db.placed.has submitted.orderId = true
  | _ => True

def NextOK (db : Database) : Next → Prop
  | .await task => TaskOK db task
  | .respond response => ResponseOK db response

section Controllers

variable {db db' : Database}

theorem Database.Grows.has (h : db.Grows db') {id : String} (hid : db.placed.has id = true) :
    db'.placed.has id = true := by
  obtain ⟨p, hp⟩ := Option.isSome_iff_exists.mp hid
  exact Option.isSome_iff_exists.mpr ⟨p, h.placed id p hp⟩

theorem ResponseOK.grow (h : db.Grows db') {r : Response} (hr : ResponseOK db r) :
    ResponseOK db' r := fun id hid => h.has (hr id hid)

theorem TaskOK.grow (h : db.Grows db') {task : Task} (ht : TaskOK db task) : TaskOK db' task := by
  cases task with
  | createOrder userId walletId body =>
    obtain ⟨w, hw, hid⟩ := ht
    obtain ⟨w', hw', hid'⟩ := h.wallets userId w hw
    exact ⟨w', hw', hid'.trans hid⟩
  | fireCommand cmd response => exact ⟨h.admits ht.1, ht.2.grow h⟩
  | submitCommand cmd submitted => exact ⟨h.admits ht.1, h.has ht.2⟩
  | reply submitted => exact h.has ht
  | _ => trivial

theorem responseOK_of_none {r : Response} (h : ∀ x ∈ r.body, x.1 ≠ "orderId") : ResponseOK db r :=
  fun _ hid => absurd rfl (h _ hid)

/-- A response to a submitted command names its order and no other. -/
theorem responseOK_respond {submitted : Submitted} (h : db.placed.has submitted.orderId = true)
    (result : Option EngineOutputEvent) : ResponseOK db (submitted.respond result) := by
  have hbody : ∀ x ∈ (submitted.respond result).body, x.1 = "orderId" →
      x.2 = .str submitted.orderId := by
    intro x hx hname
    unfold Submitted.respond apiError at hx
    dsimp only at hx
    split at hx <;> simp only [List.mem_cons, List.not_mem_nil, or_false] at hx <;>
      rcases hx with rfl | rfl | rfl | rfl | rfl | rfl <;> first | rfl | simp at hname
  intro id hid
  obtain rfl := Json.str.inj (hbody _ hid rfl)
  exact h

theorem NextOK.start (request : Request) (db : Database) : NextOK db request.start := by
  have hinvalid : ResponseOK db invalidBody := responseOK_of_none (by simp [invalidBody])
  cases request <;> unfold Request.start <;> dsimp only <;> split_ifs <;>
    first | exact hinvalid | trivial

theorem whole_of_intColumn {x : ℚ} {n : DbWriter.IntColumn} (h : intColumn x = some n) :
    ((n : ℤ) : ℚ) = x := by
  unfold intColumn at h
  split_ifs at h with hint
  obtain rfl := Option.some.inj h
  exact Rat.coe_int_num_of_den_eq_one hint.1

theorem createUser_keeps (h : TablesOK db) {username : String} {drawn : Drawn}
    (hcreate : createUser db username drawn = some db') :
    db.Grows db' ∧ TablesOK db' ∧ db'.registry.knows drawn.id := by
  unfold createUser at hcreate
  split_ifs at hcreate with hfresh
  obtain rfl := Option.some.inj hcreate
  rw [not_or, not_or, not_or] at hfresh
  have hnew : db.tables.wallets.get? drawn.id = none := by
    have hhas := hfresh.2.2.1
    unfold OrdMap.has at hhas
    simpa using hhas
  refine ⟨?hgrows, h.grow ?hgrows h.orders rfl rfl, ⟨_, OrdMap.get?_set_self _ _ _⟩⟩
  refine ⟨fun _ _ hp => hp, fun u w hw => ⟨w, ?_, rfl⟩⟩
  have hne : u ≠ drawn.id := by
    rintro rfl
    rw [hnew] at hw
    cases hw
  exact (OrdMap.get?_set_ne _ hne _).trans hw

theorem incrementWallet_keeps (h : TablesOK db) {userId : String} {amount : ℚ}
    {row : DbWriter.WalletRow} (hincrement : incrementWallet db userId amount = some (db', row)) :
    db.Grows db' ∧ TablesOK db' ∧ db'.registry.knows userId := by
  obtain ⟨n, -, hincrement⟩ := Option.bind_eq_some_iff.mp hincrement
  obtain ⟨old, hold, hincrement⟩ := Option.bind_eq_some_iff.mp hincrement
  obtain ⟨balance, -, hincrement⟩ := Option.bind_eq_some_iff.mp hincrement
  obtain ⟨freeBalance, -, hincrement⟩ := Option.bind_eq_some_iff.mp hincrement
  obtain ⟨rfl, -⟩ := Prod.mk.inj (Option.some.inj hincrement)
  refine ⟨?hgrows, h.grow ?hgrows h.orders rfl rfl, ⟨_, OrdMap.get?_set_self _ _ _⟩⟩
  refine ⟨fun _ _ hp => hp, fun u w hw => ?_⟩
  by_cases hu : u = userId
  · subst hu
    obtain rfl := Option.some.inj (hold.symm.trans hw)
    exact ⟨_, OrdMap.get?_set_self _ _ _, rfl⟩
  · exact ⟨w, (OrdMap.get?_set_ne _ hu _).trans hw, rfl⟩

/-- The command that follows a new row says what the row says. -/
theorem createOrder_keeps (h : TablesOK db) {userId walletId : String} {body : OrderBody}
    {drawn : Drawn} (hwallet : ∃ w, db.tables.wallets.get? userId = some w ∧ w.id = walletId)
    (hcreate : createOrder db walletId body drawn = some db') :
    db.Grows db' ∧ TablesOK db' ∧ db'.registry.Admits (placeCommand userId body drawn).payload ∧
      db'.placed.has drawn.id = true := by
  obtain ⟨row, hrow, hcreate⟩ := Option.bind_eq_some_iff.mp hcreate
  split_ifs at hcreate with hfresh
  obtain rfl := Option.some.inj hcreate
  obtain ⟨quantity, hquantity, hrow⟩ := Option.bind_eq_some_iff.mp hrow
  obtain ⟨price, hprice, hrow⟩ := Option.bind_eq_some_iff.mp hrow
  obtain ⟨leverage, -, hrow⟩ := Option.bind_eq_some_iff.mp hrow
  obtain ⟨margin, -, hrow⟩ := Option.bind_eq_some_iff.mp hrow
  obtain rfl := Option.some.inj hrow
  rw [not_or] at hfresh
  have hnew : db.placed.get? drawn.id = none := by
    have hhas := hfresh.1
    unfold OrdMap.has at hhas
    simpa using hhas
  refine ⟨?hgrows, h.grow ?hgrows (fun id => ?_) rfl rfl, ?_, ?_⟩
  · refine ⟨fun id p hp => ?_, fun u w hw => ⟨w, hw, rfl⟩⟩
    have hne : id ≠ drawn.id := by
      rintro rfl
      rw [hnew] at hp
      cases hp
    exact (OrdMap.get?_set_ne _ hne _).trans hp
  · have hold := h.orders id
    unfold OrdMap.has at hold ⊢
    rw [OrdMap.get?_set, OrdMap.get?_set]
    split_ifs
    · rfl
    · exact hold
  · exact ⟨_,
      { row := OrdMap.get?_set_self _ _ _
        wallet := hwallet
        orderType := rfl
        side := rfl
        quantity := whole_of_intColumn hquantity
        price := whole_of_intColumn hprice }⟩
  · unfold OrdMap.has
    rw [OrdMap.get?_set_self]
    rfl

theorem findOrder_owns {orderId owner : String} {status : DbWriter.Status}
    (h : findOrder db orderId = some (owner, status)) : db.Owns orderId owner := by
  obtain ⟨p, hp, h⟩ := Option.bind_eq_some_iff.mp h
  obtain ⟨row, -, h⟩ := Option.bind_eq_some_iff.mp h
  obtain ⟨⟨u, w⟩, hfind, h⟩ := Option.bind_eq_some_iff.mp h
  obtain ⟨rfl, -⟩ := Prod.mk.inj (Option.some.inj h)
  have hw := (db.tables.wallets.mem_entries_iff u w).mp (List.mem_of_find?_eq_some hfind)
  have hid := List.find?_some hfind
  exact ⟨p, w, hp, hw, of_decide_eq_true hid⟩

/-- A step of a task leaves the tables in agreement and what comes next backed. -/
theorem advance_keeps (h : TablesOK db) {task : Task} (ht : TaskOK db task) {drawn : Drawn}
    {next : Next} (hadvance : advance db drawn task = some (db', next)) :
    db.Grows db' ∧ TablesOK db' ∧ NextOK db' next := by
  have hsame {next' : Next} (hnext : NextOK db next') (heq : some (db, next') = some (db', next)) :
      db.Grows db' ∧ TablesOK db' ∧ NextOK db' next := by
    obtain ⟨rfl, rfl⟩ := Prod.mk.inj (Option.some.inj heq)
    exact ⟨.refl db, h, hnext⟩
  have herror (status : ℕ) (message : String) :
      NextOK db (.respond (apiError status message [])) :=
    responseOK_of_none (by simp [apiError])
  have hinternal : NextOK db (.respond internalError) :=
    responseOK_of_none (by simp [internalError])
  cases task with
  | findUser username =>
    unfold advance at hadvance
    dsimp only at hadvance
    split_ifs at hadvance
    · exact hsame (herror _ _) hadvance
    · have hnext : NextOK db (.await (.createUser username)) := trivial
      exact hsame hnext hadvance
  | createUser username =>
    unfold advance at hadvance
    dsimp only at hadvance
    split at hadvance
    · next mid hcreate =>
      obtain ⟨rfl, rfl⟩ := Prod.mk.inj (Option.some.inj hadvance)
      obtain ⟨hgrows, hok, hknows⟩ := createUser_keeps h hcreate
      exact ⟨hgrows, hok, hknows, responseOK_of_none (by simp)⟩
    · exact hsame hinternal hadvance
  | updateWallet userId amount =>
    unfold advance at hadvance
    dsimp only at hadvance
    split at hadvance
    · next mid row hincrement =>
      obtain ⟨rfl, rfl⟩ := Prod.mk.inj (Option.some.inj hadvance)
      obtain ⟨hgrows, hok, hknows⟩ := incrementWallet_keeps h hincrement
      exact ⟨hgrows, hok, hknows, responseOK_of_none (by simp)⟩
    · exact hsame hinternal hadvance
  | findWallet userId body =>
    unfold advance at hadvance
    dsimp only at hadvance
    split at hadvance
    · next row hrow =>
      have hnext : NextOK db (.await (.createOrder userId row.id body)) := ⟨row, hrow, rfl⟩
      exact hsame hnext hadvance
    · exact hsame (herror _ _) hadvance
  | createOrder userId walletId body =>
    unfold advance at hadvance
    dsimp only at hadvance
    split at hadvance
    · next mid hcreate =>
      obtain ⟨rfl, rfl⟩ := Prod.mk.inj (Option.some.inj hadvance)
      obtain ⟨hgrows, hok, hadmits, hhas⟩ := createOrder_keeps h ht hcreate
      exact ⟨hgrows, hok, hadmits, hhas⟩
    · exact hsame hinternal hadvance
  | findOrder userId body =>
    unfold advance at hadvance
    dsimp only at hadvance
    split at hadvance
    · next owner status hfind =>
      split_ifs at hadvance with howner hstatus
      · exact hsame (herror _ _) hadvance
      · exact hsame (herror _ _) hadvance
      · have howns := findOrder_owns hfind
        rw [not_not.mp howner] at howns
        have hhas : db.placed.has body.orderId = true := by
          obtain ⟨p, w, hp, -⟩ := howns
          exact Option.isSome_iff_exists.mpr ⟨p, hp⟩
        have hnext : NextOK db (.await
            (.submitCommand (cancelCommand userId body drawn) (.cancel body.orderId))) :=
          ⟨howns, hhas⟩
        exact hsame hnext hadvance
    · exact hsame (herror _ _) hadvance
  | _ => cases hadvance

end Controllers

/-! The runtime -/

/-- If the log names what is registered only, so do the engines and the output stream. -/
theorem live_registered (g : Registry) {cfg : EngineRuntime.Config} {as : List EngineRuntime.Action}
    {s : EngineRuntime.System} (hrun : runs (EngineRuntime.step cfg) .init as = some s)
    (hlog : LogMeets (fun e => engineInputEventSchema e ∧ g.Admits e.payload) s.log) :
    (∀ m ∈ s.memory, g.Holds m.engine) ∧ ∀ out ∈ s.output, g.Vouches out.payload := by
  have hcore (s t : EngineState) (hc : SameCore s t) (h : g.Holds s) : g.Holds t :=
    h.congr (sameCore_book hc h.book) (keysOK_of_pos h.keys hc.pos) hc.bids hc.asks
      (fun u => by rw [hc.balances]) fun u => by rw [hc.positions]
  have hsame (s t : EngineState) (hs : SameUpToOrder s t) (h : g.Holds s) : g.Holds t := by
    refine h.congr (sameUpToOrder_book hs h.book) (keysOK_of_pos h.keys hs.pos) ?_ ?_ hs.balances
      hs.positions
    · rw [hs.rest]
    · rw [hs.rest]
  have hrules : EngineRuntime.EngineRules cfg.market fun log t =>
      LogMeets (fun e => engineInputEventSchema e ∧ g.Admits e.payload) log → g.Holds t :=
    EngineRuntime.rules_of_invariant (Registry.holds_createState g cfg.market) hcore hsame
      fun _ _ id he h => h.process he.2 he.1 id
  have hlives := EngineRuntime.lives_run hrules hrun
  refine ⟨fun m hm => hlives.running m hm hlog, fun out hout => ?_⟩
  obtain ⟨t, y, e, ht, hy, he, hmem⟩ := hlives.published out hout
  exact (ht hlog).vouches_process (hlog y hy e he).2 y.id _ (List.mem_map_of_mem hmem)

theorem runtime_log {cfg : EngineRuntime.Config} {s s' : EngineRuntime.System}
    {a : EngineRuntime.Action} (ha : Platform.appends a = false)
    (h : EngineRuntime.step cfg s a = some s') : s'.log = s.log := by
  cases EngineRuntime.step_cases h with
  | add => cases ha
  | _ => rfl

theorem runtime_add {cfg : EngineRuntime.Config} {s s' : EngineRuntime.System} {entry : InputEntry}
    (h : EngineRuntime.step cfg s (.add entry) = some s') {C : EngineInputEvent → Prop}
    (hlog : LogMeets C s.log) (hentry : ∀ e, decodeInputEvent entry.data = some e → C e) :
    LogMeets C s'.log := by
  cases EngineRuntime.step_cases h with
  | add hadd =>
    intro y hy e he
    rcases (Log.mem_of_add hadd).mp hy with hy | rfl
    · exact hlog y hy e he
    · exact hentry e he

/-! The platform -/

namespace Platform

variable {cfg : EngineRuntime.Config} {s s' : Platform}

/-- What every step keeps. -/
structure Kept (cfg : EngineRuntime.Config) (s : Platform) : Prop where
  tables : TablesOK s.db
  tasks : ∀ task ∈ s.tasks, TaskOK s.db task
  responses : ∀ r ∈ s.responses, ResponseOK s.db r
  log : LogMeets (fun e => engineInputEventSchema e ∧ s.db.registry.Admits e.payload) s.runtime.log
  reached : ∃ as, runs (EngineRuntime.step cfg) .init as = some s.runtime

theorem Kept.init (cfg : EngineRuntime.Config) : Kept cfg .init where
  tables := ⟨fun _ => rfl, fun _ _ hrow => (nomatch hrow), fun _ hu => (nomatch hu)⟩
  tasks _ ht := nomatch ht
  responses _ hr := nomatch hr
  log _ hy := nomatch hy
  reached := ⟨[], rfl⟩

/-- A database that has grown. -/
theorem Kept.grow (h : Kept cfg s) {db : Database} (hgrows : s.db.Grows db) (hok : TablesOK db) :
    Kept cfg { s with db := db } where
  tables := hok
  tasks task ht := (h.tasks task ht).grow hgrows
  responses r hr := (h.responses r hr).grow hgrows
  log y hy e he := ⟨(h.log y hy e he).1, hgrows.admits (h.log y hy e he).2⟩
  reached := h.reached

theorem Kept.settle (h : Kept cfg s) (i : ℕ) {next : Next} (hnext : NextOK s.db next) :
    Kept cfg (s.settle i next) := by
  cases next with
  | await task =>
    refine ⟨h.tables, fun t ht => ?_, h.responses, h.log, h.reached⟩
    rcases List.mem_or_eq_of_mem_set ht with ht | rfl
    · exact h.tasks t ht
    · exact hnext
  | respond response =>
    refine ⟨h.tables, fun t ht => h.tasks t (List.mem_of_mem_eraseIdx ht), fun r hr => ?_, h.log,
      h.reached⟩
    rcases List.mem_append.mp hr with hr | hr
    · exact h.responses r hr
    · rw [List.mem_singleton.mp hr]
      exact hnext

theorem Kept.reach (h : Kept cfg s) {a : EngineRuntime.Action} {runtime : EngineRuntime.System}
    (hstep : EngineRuntime.step cfg s.runtime a = some runtime)
    (hlog : LogMeets (fun e => engineInputEventSchema e ∧ s.db.registry.Admits e.payload)
      runtime.log) : Kept cfg { s with runtime := runtime } := by
  obtain ⟨as, has⟩ := h.reached
  refine ⟨h.tables, h.tasks, h.responses, hlog, as ++ [a], ?_⟩
  rw [runs_concat, has]
  exact hstep

/-- A command that is admitted goes into the stream. -/
theorem Kept.enqueue (h : Kept cfg s) {cmd : CommandInput} (hcmd : s.db.registry.Admits cmd.payload)
    {stamp : Stamp} {reply : EngineRuntime.Reply} {runtime : EngineRuntime.System}
    (henqueue : enqueue cfg s.runtime cmd stamp reply = some (some runtime)) :
    Kept cfg { s with runtime := runtime } := by
  unfold Platform.enqueue at henqueue
  split at henqueue
  · cases henqueue
  · next event hevent =>
    split_ifs at henqueue
    · obtain ⟨runtime', hadd, heq⟩ := Option.map_eq_some_iff.mp henqueue
      obtain rfl := Option.some.inj heq
      refine h.reach hadd (runtime_add hadd h.log fun e he => ?_)
      obtain ⟨hsome, -, hschema⟩ := decodeWith_eq_some.mp he
      obtain rfl := Option.some.inj hsome
      obtain ⟨-, hpayload, -⟩ := buildEvent_eq_some hevent
      exact ⟨hschema, hpayload ▸ hcmd⟩
    · obtain rfl := Option.some.inj (Option.some.inj henqueue)
      exact h

theorem nextOK_sent {db : Database} {task : Task} (h : TaskOK db task)
    (reply : EngineRuntime.Reply) : NextOK db (sent task reply) := by
  cases task with
  | fireCommand cmd response =>
    show ResponseOK db (if reply = .ok then response else internalError)
    split_ifs
    · exact h.2
    · exact responseOK_of_none (by simp [internalError])
  | submitCommand cmd submitted =>
    unfold sent
    dsimp only
    split_ifs
    · exact h.2
    · exact responseOK_respond h.2 none
  | _ => exact h

theorem Task.admits_command {db : Database} {task : Task} (h : TaskOK db task) {cmd : CommandInput}
    (hcmd : Task.command task = some cmd) : db.registry.Admits cmd.payload := by
  cases task with
  | fireCommand cmd' response =>
    obtain rfl := Option.some.inj hcmd
    exact h.1
  | submitCommand cmd' submitted =>
    obtain rfl := Option.some.inj hcmd
    exact h.1
  | _ => cases hcmd

theorem kept_step {a : Action} (h : step cfg s a = some s') (hs : Kept cfg s) : Kept cfg s' := by
  have htask {i : ℕ} {task : Task} (hi : s.tasks[i]? = some task) : TaskOK s.db task :=
    hs.tasks task (List.mem_of_getElem? hi)
  cases step_cases h with
  | @begun request task hstart =>
    have hnext := NextOK.start request s.db
    rw [hstart] at hnext
    refine ⟨hs.tables, fun t ht => ?_, hs.responses, hs.log, hs.reached⟩
    rcases List.mem_append.mp ht with ht | ht
    · exact hs.tasks t ht
    · rw [List.mem_singleton.mp ht]
      exact hnext
  | @refused request response hstart =>
    have hnext := NextOK.start request s.db
    rw [hstart] at hnext
    refine ⟨hs.tables, hs.tasks, fun r hr => ?_, hs.log, hs.reached⟩
    rcases List.mem_append.mp hr with hr | hr
    · exact hs.responses r hr
    · rw [List.mem_singleton.mp hr]
      exact hnext
  | @query i drawn task db next hi hadvance =>
    obtain ⟨hgrows, hok, hnext⟩ := advance_keeps hs.tables (htask hi) hadvance
    exact (hs.grow hgrows hok).settle i hnext
  | invalid i stamp reply => exact hs.settle i (responseOK_of_none (by simp [invalidBody]))
  | @sent i stamp reply task cmd runtime hi hcmd henqueue =>
    exact (hs.enqueue (Task.admits_command (htask hi) hcmd) henqueue).settle i
      (nextOK_sent (htask hi) reply)
  | @resolve i result submitted hi =>
    have hreply : s.db.placed.has submitted.orderId = true := htask hi
    exact hs.settle i (responseOK_respond hreply result)
  | fail i => exact hs.settle i (responseOK_of_none (by simp [internalError]))
  | @observe entry runtime hfrom hadd =>
    refine hs.reach hadd (runtime_add hadd hs.log fun e he => ⟨(decodeWith_eq_some.mp he).2.2, ?_⟩)
    unfold fromObserver at hfrom
    rw [he] at hfrom
    dsimp only at hfrom
    split at hfrom
    · next hp =>
      rw [hp]
      trivial
    · cases hfrom
  | @runtime a runtime ha hstep =>
    refine hs.reach hstep ?_
    rw [runtime_log ha hstep]
    exact hs.log
  | @project n streamId aborted evt hevt =>
    obtain ⟨as, hrun⟩ := hs.reached
    have hv := (live_registered s.db.registry hrun hs.log).2 evt (List.mem_of_getElem? hevt)
    cases htables : DbWriter.projectInt aborted s.db.tables evt streamId with
    | none => exact hs
    | some tables =>
      obtain ⟨hgrows, hok⟩ := projectInt_keeps hs.tables hv htables
      exact hs.grow hgrows hok

theorem kept_run {as : List Action} (hrun : runs (step cfg) .init as = some s) : Kept cfg s :=
  runs_history (I := fun _ s => Kept cfg s) (.init cfg) (fun _ _ _ _ _ h hs => kept_step h hs) hrun

/-- The database and the rest of the system agree. -/
structure Integrity (s : Platform) : Prop where
  tables : TablesOK s.db
  /-- Users and orders in the output stream are those of the rows. -/
  vouched : ∀ evt ∈ s.runtime.output, s.db.registry.Vouches evt.payload
  /-- No output is refused but for a number that its column does not take. -/
  accepted : ∀ evt ∈ s.runtime.output, ∀ streamId aborted,
    DbWriter.projectInt aborted s.db.tables evt streamId = none → TooLarge aborted evt
  /-- No trade is passed over. -/
  filled : ∀ evt ∈ s.runtime.output, ∀ t, evt.payload = .tradeExecuted t →
    ∃ row, DbWriter.fillWrite s.db.tables evt = some (t.tradeId, row) ∧
      ∃ maker taker, FillOK s.db row maker taker
  /-- What rests in the running engine is part of an order that has a row. -/
  resting : ∀ m ∈ s.runtime.memory, ∀ x ∈ m.engine.resting, ∃ o, s.db.registry.Backs x o
  responses : ∀ r ∈ s.responses, ResponseOK s.db r

/-- The database agrees with the engine, its outputs and the responses in every run. -/
theorem database_first (cfg : EngineRuntime.Config) {as : List Action} {s : Platform}
    (hrun : runs (step cfg) .init as = some s) : Integrity s := by
  have hs := kept_run hrun
  obtain ⟨bs, hruntime⟩ := hs.reached
  obtain ⟨hengine, houtput⟩ := live_registered s.db.registry hruntime hs.log
  refine ⟨hs.tables, houtput, fun evt hevt _ _ => projectInt_refuses hs.tables (houtput evt hevt),
    fun evt hevt t ht => ?_, fun m hm => (hengine m hm).resting, hs.responses⟩
  have hv := houtput evt hevt
  rw [ht] at hv
  obtain ⟨maker, taker, hallows⟩ := hv
  exact fillWrite_of_allows hallows ht

end Platform

end Backend

namespace Fixture

open Backend

def signup (name userId : String) (n : ℕ) : List Platform.Action :=
  [.request (.signup name "secret"), .query 0 ⟨"", ""⟩, .query 0 ⟨userId, "wallet-" ++ userId⟩,
    .send 0 ⟨"evt_" ++ userId, n, "corr_" ++ userId, ⟨n, 0⟩⟩ .ok]

def onramp (userId : String) (amount : ℚ) (n : ℕ) : List Platform.Action :=
  [.request (.onramp userId amount), .query 0 ⟨"deposit-" ++ userId, ""⟩,
    .send 0 ⟨"evt_d" ++ userId, n, "corr_d" ++ userId, ⟨n, 0⟩⟩ .ok]

def order (userId orderId : String) (side : Side) (n : ℕ) : List Platform.Action :=
  [.request (.order userId ⟨1, 100, .LIMIT, side, 1, 100⟩), .query 0 ⟨"", ""⟩,
    .query 0 ⟨orderId, "cmd-" ++ orderId⟩,
    .send 0 ⟨"evt_o" ++ userId, n, "corr_o" ++ userId, ⟨n, 0⟩⟩ .lost]

/-- The engine goes over a message that it has replayed. -/
def goOver : List Platform.Action := [.runtime .dispatch, .runtime (.ack .ok)]

/-- Two users trade with one another, the second order after a recovery. -/
def tradingDay : List Platform.Action :=
  signup "ann" "a" 1 ++ signup "bob" "b" 2 ++ onramp "a" 1000 3 ++ onramp "b" 1000 4 ++
    order "a" "o1" .Bid 5 ++ [.runtime (.recover [])] ++ order "b" "o2" .Ask 6 ++
    [.runtime (.readNew .ok)] ++ (List.replicate 5 goOver).flatten ++
    [.runtime .dispatch, .runtime (.publish .ok), .project 0 ⟨1, 0⟩ false]

end Fixture

namespace Backend.Platform

open Fixture in
theorem database_first_trade :
    ∃ s, runs (step CONFIG) .init tradingDay = some s ∧ s.db.tables.fills.has "BTCUSDT-10" = true ∧
      Integrity s := by
  have hfacts : ∃ s ∈ runs (step CONFIG) .init tradingDay,
      s.db.tables.fills.has "BTCUSDT-10" = true := by decide +kernel
  obtain ⟨s, hs, hfill⟩ := hfacts
  exact ⟨s, hs, hfill, database_first CONFIG hs⟩

end Backend.Platform

end Perps
