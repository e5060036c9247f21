import Perps.Events.Wire
import Perps.Events.Codec
import Perps.Domain.Fills
import Perps.Domain.Reachable

/-! Events survive the wire: an input event that its schema accepts is decoded as it
was encoded, and so is every output of the engine. -/

namespace Perps

open Lib

namespace Wire

open Schema

/-! Members and bounds -/

theorem side_name_inj : Function.Injective Side.name := by
  intro a b h
  cases a <;> cases b <;> simp [Side.name] at h ⊢

theorem orderType_name_inj : Function.Injective OrderType.name := by
  intro a b h
  cases a <;> cases b <;> simp [OrderType.name] at h ⊢

theorem orderStatus_name_inj : Function.Injective OrderStatus.name := by
  intro a b h
  cases a <;> cases b <;> simp [OrderStatus.name] at h ⊢

theorem parse_side (side : Side) : sideSchema.parse (.str side.name) = some side :=
  parse_enum side_name_inj (by cases side <;> decide)

theorem parse_orderType (t : OrderType) : orderTypeSchema.parse (.str t.name) = some t :=
  parse_enum orderType_name_inj (by cases t <;> decide)

theorem parse_orderStatus (status : OrderStatus) :
    orderStatusSchema.parse (.str status.name) = some status :=
  parse_enum orderStatus_name_inj (by cases status <;> decide)

theorem parse_nonnegative {n : ℚ} (h : 0 ≤ n) : nonnegative.parse (.num n) = some n :=
  parse_refine (parse_number n) h

theorem parse_positive {n : ℚ} (h : 0 < n) : positive.parse (.num n) = some n :=
  parse_refine (parse_number n) h

theorem parse_levels (ls : List (ℚ × ℚ)) :
    (array (tuple number number)).parse (DraftOutput.toObject.levels ls) = some ls :=
  parse_array ls fun l _ => parse_tuple (parse_number l.1) (parse_number l.2)

/-! Events -/

/-- Integers are safe ones. -/
def SafeMeta (m : EnvelopeMeta) : Prop :=
  m.ts ≤ MAX_SAFE_INTEGER ∧ m.schemaVersion ≤ MAX_SAFE_INTEGER

def SafeInput : InputPayload → Prop
  | .indexPriceUpdated p => p.observerSeq ≤ MAX_SAFE_INTEGER ∧ p.sourceTs ≤ MAX_SAFE_INTEGER
  | _ => True

def SafeOutput : DraftOutput → Prop
  | .tradeExecuted p => p.ts ≤ MAX_SAFE_INTEGER
  | _ => True

theorem parse_optional {a : Option String} (h : optionalId a) (name : String)
    (get : String → Option Json) (hget : get name = a.map .str) :
    nonempty.optionalKey name get = some a := by
  refine optionalKey_eq hget fun b hb => parse_nonempty ?_
  rw [Option.mem_def.mp hb] at h
  exact h

section Envelope

variable {m : EnvelopeMeta} {eventType : String} {payload : Json}

theorem toObject_nodup : ((m.toObject eventType payload).map Prod.fst).Nodup := by
  simp [EnvelopeMeta.toObject]

theorem envelopeBase_eq (h : m.Valid) (hsafe : SafeMeta m) :
    envelopeBase (m.toObject eventType payload).get = some m := by
  obtain ⟨hid, hsource, hversion, hcorrelation, hcausation, hcommand⟩ := h
  have hversion := parse_refine (parse_natural hsafe.2) hversion
  have hcorrelation := parse_optional hcorrelation "correlationId" (m.toObject eventType payload).get
    (by simp [EnvelopeMeta.toObject, JsObject.get])
  have hcausation := parse_optional hcausation "causationId" (m.toObject eventType payload).get
    (by simp [EnvelopeMeta.toObject, JsObject.get])
  have hcommand := parse_optional hcommand "commandId" (m.toObject eventType payload).get
    (by simp [EnvelopeMeta.toObject, JsObject.get])
  unfold envelopeBase
  rw [hcorrelation, hcausation, hcommand]
  simp [EnvelopeMeta.toObject, JsObject.get, key, parse_nonempty hid, parse_nonempty hsource,
    parse_natural hsafe.1, hversion]

variable {α β : Type} {options : List (String × ((String → Option Json) → Option (EnvelopeMeta × α)))}
  {s : Schema α} {a : α} {f : EnvelopeMeta × α → β}

/-- An encoded event is decoded by the option of its type. -/
theorem decodeWith_event (hoption : options.find? (fun o => o.1 = eventType) =
    some (withEnvelope eventType s)) (h : m.Valid) (hsafe : SafeMeta m)
    (hversion : m.schemaVersion = SCHEMA_VERSION) (ha : s.parse payload = some a) {event : JsObject}
    (hevent : event.defined.Perm (m.toObject eventType payload).defined) :
    decodeWith ((discriminatedUnion "eventType" options).map f) (encodeEvent event) =
      some (f (m, a)) := by
  have hnewer : newer event.stringify = false := by
    unfold newer JsObject.stringify
    rw [JsObject.field_of_perm toObject_nodup hevent]
    simp [EnvelopeMeta.toObject, JsObject.get, hversion]
  have hparse : (discriminatedUnion "eventType" options).parse event.stringify = some (m, a) := by
    unfold discriminatedUnion JsObject.stringify
    rw [parse_object toObject_nodup hevent]
    have htag : string.key "eventType" (m.toObject eventType payload).get = some eventType :=
      key_eq (by simp [EnvelopeMeta.toObject, JsObject.get]) (parse_string eventType)
    have hpayload : s.key "payload" (m.toObject eventType payload).get = some a :=
      key_eq (by simp [EnvelopeMeta.toObject, JsObject.get]) ha
    simp only [htag, hoption, withEnvelope, envelopeBase_eq h hsafe, hpayload, bind, Option.bind_some,
      pure]
  unfold decodeWith encodeEvent
  dsimp only
  rw [hnewer, if_neg Bool.false_ne_true, parse_map hparse]

end Envelope

/-! Input events -/

section Payload

variable {fs : List (String × Json)}

theorem parse_userCreated {p : UserCreated} (h : p.Valid)
    (hfs : fs.Perm (InputPayload.userCreated p).toObject.defined) :
    userCreated.parse (.obj fs) = some p := by
  unfold userCreated
  rw [parse_object (by simp [InputPayload.toObject]) hfs]
  simp [InputPayload.toObject, JsObject.get, key, parse_nonempty h.1, parse_nonnegative h.2]

theorem parse_balanceDeposited {p : BalanceDeposited} (h : p.Valid)
    (hfs : fs.Perm (InputPayload.balanceDeposited p).toObject.defined) :
    balanceDeposited.parse (.obj fs) = some p := by
  unfold balanceDeposited
  rw [parse_object (by simp [InputPayload.toObject]) hfs]
  simp [InputPayload.toObject, JsObject.get, key, parse_nonempty h.1, parse_positive h.2]

theorem parse_placeOrderCommand {p : PlaceOrder} (h : p.Valid)
    (hfs : fs.Perm (InputPayload.orderPlace p).toObject.defined) :
    placeOrderCommand.parse (.obj fs) = some p := by
  obtain ⟨huser, horder, hquantity, hprice, hleverage, hmargin⟩ := h
  unfold placeOrderCommand
  rw [parse_object (by simp [InputPayload.toObject]) hfs]
  simp [InputPayload.toObject, JsObject.get, key, parse_nonempty huser, parse_nonempty horder,
    parse_side, parse_orderType, parse_positive hquantity, parse_nonnegative hprice,
    parse_positive hleverage, parse_positive hmargin]

theorem parse_cancelOrderCommand {p : CancelOrder} (h : p.Valid)
    (hfs : fs.Perm (InputPayload.orderCancel p).toObject.defined) :
    cancelOrderCommand.parse (.obj fs) = some p := by
  unfold cancelOrderCommand
  rw [parse_object (by simp [InputPayload.toObject]) hfs]
  simp [InputPayload.toObject, JsObject.get, key, parse_nonempty h.1, parse_nonempty h.2.1,
    parse_side, parse_nonnegative h.2.2]

theorem parse_indexPriceUpdated {p : IndexPriceUpdated} (h : p.Valid)
    (hsafe : SafeInput (.indexPriceUpdated p))
    (hfs : fs.Perm (InputPayload.indexPriceUpdated p).toObject.defined) :
    indexPriceUpdated.parse (.obj fs) = some p := by
  unfold indexPriceUpdated
  rw [parse_object (by simp [InputPayload.toObject]) hfs]
  simp [InputPayload.toObject, JsObject.get, key, parse_nonempty h.1, parse_positive h.2,
    parse_natural hsafe.1, parse_natural hsafe.2]

end Payload

/-- An event that `engineInputEventSchema` accepts. -/
structure Accepted (e : EngineInputEvent) : Prop where
  valid : Perps.engineInputEventSchema e
  safeMeta : SafeMeta e.toEnvelopeMeta
  safePayload : SafeInput e.payload

theorem decode_encode_input {e : EngineInputEvent} (he : Accepted e)
    (hversion : e.schemaVersion = SCHEMA_VERSION) {payload : List (String × Json)}
    (hpayload : payload.Perm e.payload.toObject.defined) {event : JsObject}
    (hevent : event.defined.Perm
      (e.toEnvelopeMeta.toObject e.payload.eventType (.obj payload)).defined) :
    decodeInputEvent (encodeEvent event) = some e := by
  obtain ⟨m, p⟩ := e
  obtain ⟨⟨hmeta, hvalid⟩, hsafe, hsafePayload⟩ := he
  dsimp only at *
  cases p with
  | userCreated p =>
    exact decodeWith_event rfl hmeta hsafe hversion (parse_map (parse_userCreated hvalid hpayload)) hevent
  | balanceDeposited p =>
    exact decodeWith_event rfl hmeta hsafe hversion (parse_map (parse_balanceDeposited hvalid hpayload))
      hevent
  | orderPlace p =>
    exact decodeWith_event rfl hmeta hsafe hversion (parse_map (parse_placeOrderCommand hvalid hpayload))
      hevent
  | orderCancel p =>
    exact decodeWith_event rfl hmeta hsafe hversion (parse_map (parse_cancelOrderCommand hvalid hpayload))
      hevent
  | indexPriceUpdated p =>
    exact decodeWith_event rfl hmeta hsafe hversion
      (parse_map (parse_indexPriceUpdated hvalid hsafePayload hpayload)) hevent

/-! What is accepted -/

theorem gives_nonempty : nonempty.Gives (· ≠ "") := gives_refine string _

theorem optionalId_of {name : String} {get : String → Option Json} {a : Option String}
    (h : nonempty.optionalKey name get = some a) : optionalId a := by
  have hgives := gives_nonempty.optionalKey h
  cases a with
  | none => trivial
  | some s => exact hgives s rfl

theorem gives_envelopeBase {get : String → Option Json} {m : EnvelopeMeta}
    (h : envelopeBase get = some m) : m.Valid ∧ SafeMeta m := by
  unfold envelopeBase at h
  simp only [bind, pure, Option.bind_eq_some_iff, Option.some.injEq] at h
  obtain ⟨eventId, hid, ts, hts, source, hsource, version, hversion, correlationId, hcorrelation,
    causationId, hcausation, commandId, hcommand, rfl⟩ := h
  exact ⟨⟨gives_nonempty.key hid, gives_nonempty.key hsource, (gives_refine natural _).key hversion,
      optionalId_of hcorrelation, optionalId_of hcausation, optionalId_of hcommand⟩,
    gives_natural.key hts, (gives_natural.refine _).key hversion⟩

theorem gives_userCreated : userCreated.Gives UserCreated.Valid := by
  refine gives_object fun get p h => ?_
  simp only [bind, pure, Option.bind_eq_some_iff, Option.some.injEq] at h
  obtain ⟨userId, huser, openingBalance, hbalance, rfl⟩ := h
  exact ⟨gives_nonempty.key huser, (gives_refine number _).key hbalance⟩

theorem gives_balanceDeposited : balanceDeposited.Gives BalanceDeposited.Valid := by
  refine gives_object fun get p h => ?_
  simp only [bind, pure, Option.bind_eq_some_iff, Option.some.injEq] at h
  obtain ⟨userId, huser, amount, hamount, rfl⟩ := h
  exact ⟨gives_nonempty.key huser, (gives_refine number _).key hamount⟩

theorem gives_placeOrderCommand : placeOrderCommand.Gives PlaceOrder.Valid := by
  refine gives_object fun get p h => ?_
  simp only [bind, pure, Option.bind_eq_some_iff, Option.some.injEq] at h
  obtain ⟨userId, huser, orderId, horder, side, -, orderType, -, quantity, hquantity, price, hprice,
    leverage, hleverage, margin, hmargin, rfl⟩ := h
  exact ⟨gives_nonempty.key huser, gives_nonempty.key horder, (gives_refine number _).key hquantity,
    (gives_refine number _).key hprice, (gives_refine number _).key hleverage,
    (gives_refine number _).key hmargin⟩

theorem gives_cancelOrderCommand : cancelOrderCommand.Gives CancelOrder.Valid := by
  refine gives_object fun get p h => ?_
  simp only [bind, pure, Option.bind_eq_some_iff, Option.some.injEq] at h
  obtain ⟨userId, huser, orderId, horder, side, -, price, hprice, rfl⟩ := h
  exact ⟨gives_nonempty.key huser, gives_nonempty.key horder, (gives_refine number _).key hprice⟩

theorem gives_indexPriceUpdated :
    indexPriceUpdated.Gives fun p => p.Valid ∧ SafeInput (.indexPriceUpdated p) := by
  refine gives_object fun get p h => ?_
  simp only [bind, pure, Option.bind_eq_some_iff, Option.some.injEq] at h
  obtain ⟨symbol, hsymbol, price, hprice, observerSeq, hseq, sourceTs, hts, rfl⟩ := h
  exact ⟨⟨gives_nonempty.key hsymbol, (gives_refine number _).key hprice⟩, gives_natural.key hseq,
    gives_natural.key hts⟩

theorem gives_withEnvelope {α : Type} {eventType : String} {payload : Schema α} {p : α → Prop}
    (h : payload.Gives p) {get : String → Option Json} {a : EnvelopeMeta × α}
    (ha : (withEnvelope eventType payload).2 get = some a) : (a.1.Valid ∧ SafeMeta a.1) ∧ p a.2 := by
  unfold withEnvelope at ha
  simp only [bind, pure, Option.bind_eq_some_iff, Option.some.injEq] at ha
  obtain ⟨m, hm, x, hx, rfl⟩ := ha
  exact ⟨gives_envelopeBase hm, h.key hx⟩

/-- The schema accepts no other events. -/
theorem gives_engineInputEventSchema : engineInputEventSchema.Gives Accepted := by
  have hpayload {eventType : String} {s : Schema InputPayload} (hs : s.Gives fun p => p.Valid ∧ SafeInput p)
      {get : String → Option Json} {a : EnvelopeMeta × InputPayload}
      (ha : (withEnvelope eventType s).2 get = some a) :
      Accepted { toEnvelopeMeta := a.1, payload := a.2 } := by
    obtain ⟨⟨hmeta, hsafe⟩, hvalid, hsafePayload⟩ := gives_withEnvelope hs ha
    exact ⟨⟨hmeta, hvalid⟩, hsafe, hsafePayload⟩
  refine Gives.map (gives_discriminatedUnion fun o ho get a ha => ?_) _ fun a h => h
  simp only [List.mem_cons, List.not_mem_nil, or_false] at ho
  rcases ho with rfl | rfl | rfl | rfl | rfl
  · exact hpayload (gives_userCreated.map InputPayload.userCreated fun p hp => ⟨hp, trivial⟩) ha
  · exact hpayload (gives_balanceDeposited.map InputPayload.balanceDeposited fun p hp => ⟨hp, trivial⟩) ha
  · exact hpayload (gives_placeOrderCommand.map InputPayload.orderPlace fun p hp => ⟨hp, trivial⟩) ha
  · exact hpayload (gives_cancelOrderCommand.map InputPayload.orderCancel fun p hp => ⟨hp, trivial⟩) ha
  · exact hpayload (gives_indexPriceUpdated.map InputPayload.indexPriceUpdated fun p hp => hp) ha

/-- What is decoded from the wire is an event of the typed model, which decodes to itself. -/
theorem decode_typed {fields : StreamFields} {e : EngineInputEvent}
    (h : decodeInputEvent fields = some e) (hversion : e.schemaVersion ≤ SCHEMA_VERSION) :
    Accepted e ∧ Perps.decodeInputEvent (some e) = some e := by
  have haccepted : Accepted e := by
    unfold decodeInputEvent decodeWith at h
    split at h
    · cases h
    · split_ifs at h
      exact gives_engineInputEventSchema _ e h
  exact ⟨haccepted, decodeWith_eq_some.mpr ⟨rfl, hversion, haccepted.valid⟩⟩

/-! Output events -/

/-- A payload as it is written. -/
theorem parse_literal {α : Type} {read : (String → Option Json) → Option α} {o : JsObject}
    (hnodup : (o.map Prod.fst).Nodup) : (object read).parse o.stringify = read o.get :=
  parse_object hnodup (.refl _)

theorem decode_encode_output {o : EngineOutputEvent} (hmeta : o.toEnvelopeMeta.Valid)
    (hsafe : SafeMeta o.toEnvelopeMeta) (hversion : o.schemaVersion = SCHEMA_VERSION)
    (hpayload : SafeOutput o.payload) : decodeOutputEvent (encodeEvent o.toObject) = some o := by
  obtain ⟨m, d⟩ := o
  dsimp only at *
  cases d
  all_goals
    refine decodeWith_event rfl hmeta hsafe hversion (parse_map ?_) (.refl _)
    simp only [orderAccepted, orderRejected, orderCancelled, tradeExecuted, orderBookDelta,
      orderBookSnapshot, positionUpdated, balanceUpdated, positionLiquidated, commandRejected]
    rw [parse_literal (by simp [DraftOutput.toObject])]
  case tradeExecuted p =>
    simp [DraftOutput.toObject, JsObject.get, key, parse_string, parse_number, parse_side,
      parse_natural hpayload]
  all_goals
    simp [DraftOutput.toObject, JsObject.get, key, parse_string, parse_number, parse_side,
      parse_orderStatus, parse_levels]

/-- A trade is stamped with the time of its command. -/
theorem safeOutput_of_process {e : EngineInputEvent} (he : SafeMeta e.toEnvelopeMeta)
    (state : EngineState) (id : StreamId) : ∀ out ∈ (Engine.process state e id).2,
      SafeOutput out.payload := by
  intro out hout
  have hmem : out.payload ∈ (Engine.process state e id).2.map EngineOutputEvent.payload :=
    List.mem_map_of_mem hout
  cases hp : out.payload with
  | tradeExecuted t =>
    rw [hp] at hmem
    by_cases hplaced : ∃ o, Engine.Accepted state e o
    · obtain ⟨o, ho⟩ := hplaced
      have ht : t ∈ Engine.trades ((Engine.process state e id).2.map EngineOutputEvent.payload) :=
        List.mem_filterMap.mpr ⟨_, hmem, rfl⟩
      rw [ho.payloads, Engine.placeAccepted_trades, Engine.matched_trades] at ht
      obtain ⟨i, hi, rfl⟩ := List.mem_mapIdx.mp ht
      exact he.1
    · exact (Engine.process_quiet (fun o ho => hplaced ⟨o, ho⟩) id _ hmem).elim
  | orderAccepted _ => trivial
  | orderRejected _ => trivial
  | orderCancelled _ => trivial
  | orderBookDelta _ => trivial
  | orderBookSnapshot _ => trivial
  | positionUpdated _ => trivial
  | balanceUpdated _ => trivial
  | positionLiquidated _ => trivial
  | commandRejected _ => trivial

/-- Whatever order its properties are in, an accepted event is decoded as it was
encoded, and so is all that the engine puts out for it in any state. -/
theorem codec_roundTrip {e : EngineInputEvent} (he : Accepted e)
    (hversion : e.schemaVersion = SCHEMA_VERSION) :
    (∀ payload : List (String × Json), payload.Perm e.payload.toObject.defined →
      ∀ event : JsObject, event.defined.Perm
        (e.toEnvelopeMeta.toObject e.payload.eventType (.obj payload)).defined →
      decodeInputEvent (encodeEvent event) = some e) ∧
    ∀ (state : EngineState) (id : StreamId), ∀ out ∈ (Engine.process state e id).2,
      decodeOutputEvent (encodeEvent out.toObject) = some out := by
  refine ⟨fun payload hpayload event hevent => decode_encode_input he hversion hpayload hevent,
    fun state id out hout => ?_⟩
  obtain ⟨hmeta, hout_version⟩ := Engine.process_valid he.valid state id out hout
  have hsafe : SafeMeta out.toEnvelopeMeta := by
    refine ⟨?_, ?_⟩
    · rw [Engine.process_ts state e id out hout]
      exact he.safeMeta.1
    · rw [hout_version]
      decide
  exact decode_encode_output hmeta hsafe hout_version
    (safeOutput_of_process he.safeMeta state id out hout)

open Fixture in
/-- A limit order, in every state of the engine. -/
theorem codec_roundTrip_place :
    let e := place "u1" "o1" .Bid .LIMIT 100 0.5 10 20
    (∀ payload : List (String × Json), payload.Perm e.payload.toObject.defined →
      ∀ event : JsObject, event.defined.Perm
        (e.toEnvelopeMeta.toObject e.payload.eventType (.obj payload)).defined →
      decodeInputEvent (encodeEvent event) = some e) ∧
    ∀ (state : EngineState) (id : StreamId), ∀ out ∈ (Engine.process state e id).2,
      decodeOutputEvent (encodeEvent out.toObject) = some out :=
  codec_roundTrip ⟨by decide +kernel, by unfold SafeMeta; decide, trivial⟩ rfl

end Wire

end Perps
