import Tickpipe.BookGrammar
import Tickpipe.OpDigest

set_option autoImplicit true

namespace Tickpipe

/-- The chain from the wire to the engine. -/
structure TradeChain (k : Nat) where
  counts : Counts := {}
  book : BookState k
  engine : SoftwareEngine := {}

namespace TradeChain

def receive (s : TradeChain k) (body : Body) : TradeChain k :=
  let parsed := ItchParser.parse s.counts body
  match parsed.1 with
  | none => { s with counts := parsed.2 }
  | some order =>
    let resolved := s.book.resolve order
    { counts := parsed.2
      book := resolved.2
      engine := s.engine.applyAll (resolved.1.getD []) }

def start (slots : Vector RestingOrder (2 ^ k)) : TradeChain k where
  book := .new slots

def run (s : TradeChain k) (bodies : List Body) : TradeChain k := bodies.foldl receive s

end TradeChain

structure Print where
  quantity : UInt32
  price : UInt32
deriving DecidableEq

namespace BookPayload

/-- What a message prints: an execution takes what it can from its order and prints at the price
at which that rests, or at its own if it has one. -/
def print? (orders : OrderMap) : BookPayload → Option Print
  | .executed ref shares _ => (orders ref).map fun ro => ⟨min shares ro.quantity, ro.price⟩
  | .executedWithPrice ref shares _ printable price =>
    if letter printable = 'Y' then
      (orders ref).map fun ro => ⟨min shares ro.quantity, price⟩
    else none
  | .trade _ _ shares _ price _ => some ⟨shares, price⟩
  | .add .. | .addMpid .. | .cancel .. | .delete .. | .replace .. => none

/-- Executions and trades are numbered, and an execution with a price has one. -/
def Numbered : BookPayload → Prop
  | .executed _ _ matchNumber | .trade _ _ _ _ _ matchNumber => matchNumber ≠ 0
  | .executedWithPrice _ _ matchNumber _ price => matchNumber ≠ 0 ∧ price ≠ 0
  | .add .. | .addMpid .. | .cancel .. | .delete .. | .replace .. => True

end BookPayload

theorem BookState.taken_eq_min (msg : Order) (ro : RestingOrder) :
    BookState.taken msg ro = min msg.quantity ro.quantity := by
  have hmin : min msg.quantity ro.quantity =
      if msg.quantity ≤ ro.quantity then msg.quantity else ro.quantity := rfl
  rw [BookState.taken, hmin]
  by_cases hlt : msg.quantity < ro.quantity
  · rw [if_pos hlt, if_pos (UInt32.le_of_lt hlt)]
  · rw [if_neg hlt]
    split
    · next hle => exact UInt32.le_antisymm (UInt32.not_lt.1 hlt) hle
    · rfl

namespace SoftwareEngine

variable {e : SoftwareEngine} {op : ResolvedOp}

/-- The tape once a print is on it. -/
def tapeWith (e : SoftwareEngine) : Option Print → Nat × UInt64 × UInt32
  | none => e.tape
  | some print => (e.matchesMade + 1, e.sharesTraded + print.quantity.toUInt64, print.price)

theorem applyAll_quiet {ops : List ResolvedOp} (h : ∀ op ∈ ops, op.prints = false) :
    (e.applyAll ops).tape = e.tape := by
  induction ops generalizing e with
  | nil => rfl
  | cons op ops ih =>
    obtain ⟨hop, hops⟩ := List.forall_mem_cons.1 h
    rw [applyAll_cons, ih hops, apply_tape, hop]
    rfl

theorem prints_execute (ha : op.action = .execute) (hm : op.matchNumber ≠ 0) :
    op.prints = true := by
  rw [ResolvedOp.prints, ha, decide_eq_true hm]
  rfl

theorem applyAll_single (h : op.prints = true) :
    (e.applyAll [op]).tape = e.tapeWith (some ⟨op.quantity, op.price⟩) := by
  rw [applyAll_cons, applyAll, List.foldl_nil, apply_tape, if_pos h]
  rfl

end SoftwareEngine

namespace BookPayload

/-- The operations of a message put its print on the tape. -/
theorem applyAll_emit (p : BookPayload) (hn : p.Numbered) (orders : OrderMap)
    (e : SoftwareEngine) (room : Bool) (locate : UInt16) (timestamp : UInt64) :
    (e.applyAll ((orders.emit (p.order
      { stockLocate := locate, timestampNs := timestamp, valid := 1 }) room).getD [])).tape =
      e.tapeWith (p.print? orders) := by
  cases p with
  | add ref side shares stock price =>
    apply SoftwareEngine.applyAll_quiet
    cases room with
    | true => exact List.forall_mem_singleton.2 rfl
    | false => exact List.forall_mem_nil _
  | addMpid ref side shares stock price =>
    apply SoftwareEngine.applyAll_quiet
    cases room with
    | true => exact List.forall_mem_singleton.2 rfl
    | false => exact List.forall_mem_nil _
  | executed ref shares matchNumber =>
    simp only [order, OrderMap.emit, print?]
    cases orders ref with
    | none => rfl
    | some ro =>
      rw [Option.map_some, Option.map_some, Option.getD_some, SoftwareEngine.applyAll_single]
      · exact congrArg (fun n => e.tapeWith (some ⟨n, ro.price⟩)) (BookState.taken_eq_min _ ro)
      · exact SoftwareEngine.prints_execute rfl hn
  | executedWithPrice ref shares matchNumber printable price =>
    obtain ⟨hmatch, hprice⟩ := hn
    simp only [order, OrderMap.emit, print?]
    by_cases hy : letter printable = 'Y'
    · rw [if_pos hy, if_pos hy]
      cases orders ref with
      | none => rfl
      | some ro =>
        rw [Option.map_some, Option.map_some, Option.getD_some, SoftwareEngine.applyAll_single]
        · exact congrArg₂ (fun n p => e.tapeWith (some ⟨n, p⟩)) (BookState.taken_eq_min _ ro)
            (if_pos hprice)
        · exact SoftwareEngine.prints_execute rfl hmatch
    · rw [if_neg hy, if_neg hy]
      apply SoftwareEngine.applyAll_quiet
      cases orders ref with
      | none => exact List.forall_mem_nil _
      | some ro => exact List.forall_mem_singleton.2 rfl
  | cancel ref shares =>
    apply SoftwareEngine.applyAll_quiet
    simp only [order, OrderMap.emit]
    cases orders ref with
    | none => exact List.forall_mem_nil _
    | some ro => exact List.forall_mem_singleton.2 rfl
  | delete ref =>
    apply SoftwareEngine.applyAll_quiet
    simp only [order, OrderMap.emit]
    cases orders ref with
    | none => exact List.forall_mem_nil _
    | some ro => exact List.forall_mem_singleton.2 rfl
  | replace ref newRef shares price =>
    apply SoftwareEngine.applyAll_quiet
    simp only [order, OrderMap.emit]
    cases orders ref with
    | none => exact List.forall_mem_nil _
    | some ro =>
      cases room with
      | true => exact List.forall_mem_cons.2 ⟨rfl, List.forall_mem_singleton.2 rfl⟩
      | false => exact List.forall_mem_singleton.2 rfl
  | trade ref side shares stock price matchNumber =>
    exact SoftwareEngine.applyAll_single rfl

end BookPayload

/-- The executions and trades among the bodies carry what they should. -/
def Numbered (body : Body) : Prop := ∀ m : BookMessage, m.LaidOut body → m.payload.Numbered

namespace TradeChain
open ItchParser (IsBook reading)

variable {s : TradeChain k} {m : BookMessage} {body : Body}

def print? (s : TradeChain k) (body : Body) : Option Print :=
  if IsBook body then (reading body).payload.print? s.book.lookup else none

def prints (s : TradeChain k) : List Body → List Print
  | [] => []
  | body :: bodies => (s.print? body).toList ++ (s.receive body).prints bodies

theorem print?_of_laidOut (h : m.LaidOut body) :
    s.print? body = m.payload.print? s.book.lookup := by
  rw [print?, if_pos (ItchParser.isBook_of_laidOut h), ItchParser.reading_of_laidOut h]

theorem receive_refused (h : ¬ IsBook body) : ∃ counts,
    s.receive body = { s with counts := counts } := by
  refine ⟨(ItchParser.parse s.counts body).2, ?_⟩
  rw [receive, ItchParser.parse_refused h]

theorem receive_laidOut (h : m.LaidOut body) (s : TradeChain k) : s.receive body =
    { counts := { s.counts with parsed := s.counts.parsed + 1 }
      book := (s.book.resolve m.order).2
      engine := s.engine.applyAll ((s.book.resolve m.order).1.getD []) } := by
  rw [receive, ItchParser.parse_of_laidOut h]

theorem receive_valid (hv : s.book.Valid) (body : Body) : (s.receive body).book.Valid := by
  by_cases h : IsBook body
  · rw [receive_laidOut h.laidOut]
    exact hv.resolve_valid _
  · obtain ⟨counts, hs⟩ := receive_refused (s := s) h
    rw [hs]
    exact hv

theorem run_valid (hv : s.book.Valid) (bodies : List Body) : (s.run bodies).book.Valid := by
  induction bodies generalizing s with
  | nil => exact hv
  | cons body bodies ih => exact ih (receive_valid hv body)

theorem receive_tape (hv : s.book.Valid) (hn : Numbered body) :
    (s.receive body).engine.tape = s.engine.tapeWith (s.print? body) := by
  rw [print?]
  by_cases h : IsBook body
  · have hm := h.laidOut
    rw [if_pos h, receive_laidOut hm, hv.resolve_emit]
    exact (reading body).payload.applyAll_emit (hn _ hm) _ _ _ _ _
  · obtain ⟨counts, hs⟩ := receive_refused (s := s) h
    rw [if_neg h, hs]
    rfl

def sharesPrinted (prints : List Print) : Nat := (prints.map (·.quantity.toNat)).sum

theorem run_tape (hv : s.book.Valid) {bodies : List Body} (hn : ∀ body ∈ bodies, Numbered body) :
    (s.run bodies).engine.tape =
      (s.engine.matchesMade + (s.prints bodies).length,
        s.engine.sharesTraded + UInt64.ofNat (sharesPrinted (s.prints bodies)),
        ((s.prints bodies).getLast?.map (·.price)).getD s.engine.lastPrice) := by
  induction bodies generalizing s with
  | nil => exact Prod.ext rfl (Prod.ext (UInt64.add_zero _).symm rfl)
  | cons body bodies ih =>
    obtain ⟨hbody, hbodies⟩ := List.forall_mem_cons.1 hn
    have hrest := ih (receive_valid hv body) hbodies
    have htape := receive_tape hv hbody
    rw [prints]
    cases hp : s.print? body with
    | none =>
      rw [hp] at htape
      obtain ⟨hmade, htape⟩ := Prod.mk.inj htape
      obtain ⟨htraded, hprice⟩ := Prod.mk.inj htape
      rw [hmade, htraded, hprice] at hrest
      exact hrest
    | some print =>
      rw [hp] at htape
      obtain ⟨hmade, htape⟩ := Prod.mk.inj htape
      obtain ⟨htraded, hprice⟩ := Prod.mk.inj htape
      rw [hmade, htraded, hprice] at hrest
      have hquantity : print.quantity.toUInt64 = UInt64.ofNat print.quantity.toNat := by
        rw [← UInt32.toNat_toUInt64, UInt64.ofNat_toNat]
      have hshares (ps : List Print) :
          sharesPrinted (print :: ps) = print.quantity.toNat + sharesPrinted ps := rfl
      have hlast (ps : List Print) :
          ((print :: ps).getLast?.map (·.price)).getD s.engine.lastPrice =
            (ps.getLast?.map (·.price)).getD print.price := by
        rw [List.getLast?_cons]
        cases ps.getLast? <;> rfl
      rw [Option.toList_some, List.singleton_append, List.length_cons, hshares, hlast,
        UInt64.ofNat_add, ← UInt64.add_assoc, ← hquantity, Nat.add_comm _ 1, ← Nat.add_assoc]
      exact hrest

end TradeChain

namespace BookState

variable {b : BookState k} {msg : Order}

theorem resolve_matchNumber (ha : msg.action = .execute) (n : UInt64) :
    b.resolve { msg with matchNumber := n } =
      ((b.resolve msg).1.map fun ops => ops.map fun op => { op with matchNumber := n },
        (b.resolve msg).2) := by
  have hleft : b.resolveImpl { msg with matchNumber := n } =
      b.resolveExecute { msg with matchNumber := n } := by
    rw [resolveImpl]
    simp only [ha]
  have hright : b.resolveImpl msg = b.resolveExecute msg := by
    rw [resolveImpl]
    simp only [ha]
  rw [resolve, resolve, hleft, hright, resolveExecute, resolveExecute, resolveTake, resolveTake]
  dsimp only
  rcases b.find msg.orderRef with ⟨idx, b'⟩
  cases idx with
  | none => rfl
  | some idx => rfl

end BookState

namespace TradeChain

variable {s : TradeChain k}

/-- A non-printable execution reduces its order and prints nothing: all else is as after the
printable one. -/
def Silent (s : TradeChain k) : Prop :=
  ∀ locate timestamp ref shares matchNumber printable printable' price body body',
    letter printable ≠ 'Y' → letter printable' = 'Y' →
    (BookMessage.mk locate timestamp
      (.executedWithPrice ref shares matchNumber printable price)).LaidOut body →
    (BookMessage.mk locate timestamp
      (.executedWithPrice ref shares matchNumber printable' price)).LaidOut body' →
    (s.receive body).engine.tape = s.engine.tape ∧
      (s.receive body).engine.tapeless = (s.receive body').engine.tapeless ∧
      (s.receive body).book = (s.receive body').book ∧
      ∀ ro, s.book.lookup ref = some ro →
        (s.receive body).book.lookup ref = ro.less (min shares ro.quantity)

theorem silent (hv : s.book.Valid) : s.Silent := by
  intro locate timestamp ref shares matchNumber printable printable' price body body' hn hy hm hm'
  let m' : BookMessage := ⟨locate, timestamp,
    .executedWithPrice ref shares matchNumber printable' price⟩
  have horder : (BookMessage.mk locate timestamp
      (.executedWithPrice ref shares matchNumber printable price)).order =
      { m'.order with matchNumber := 0 } := by
    simp only [BookMessage.order, BookPayload.order, if_neg hn, m']
  have haction : m'.order.action = .execute := rfl
  rw [receive_laidOut hm, receive_laidOut hm', horder, BookState.resolve_matchNumber haction]
  refine ⟨?_, ?_, rfl, ?_⟩
  · apply SoftwareEngine.applyAll_quiet
    rw [hv.resolve_emit]
    simp only [OrderMap.emit, haction]
    cases s.book.lookup m'.order.orderRef with
    | none => exact List.forall_mem_nil _
    | some ro => exact List.forall_mem_singleton.2 rfl
  · apply SoftwareEngine.applyAll_words _ rfl
    cases (s.book.resolve m'.order).1 with
    | none => exact .nil
    | some ops =>
      apply List.forall₂_map_left_iff.2
      exact List.forall₂_same.2 fun op _ => rfl
  · intro ro hro
    have hlookup : s.book.lookup m'.order.orderRef = some ro := hro
    have hstep := hv.resolve_lookup m'.order
    simp only [haction, hlookup, OrderMap.step, OrderMap.take] at hstep
    have href := congrFun hstep m'.order.orderRef
    rw [Function.update_self, BookState.taken_eq_min] at href
    exact href

end TradeChain

/-- The tape of an engine shows the prints of the stream: their shares and their number modulo
`2 ^ 64`, and the price of the last one. -/
theorem prints_accounted {k : Nat} (slots : Vector RestingOrder (2 ^ k)) (bodies : List Body)
    (hn : ∀ body ∈ bodies, Numbered body) :
    let s := (TradeChain.start slots).run bodies
    let prints := (TradeChain.start slots).prints bodies
    s.engine.sharesTraded = UInt64.ofNat (TradeChain.sharesPrinted prints) ∧
      UInt64.ofNat s.engine.matchesMade = UInt64.ofNat prints.length ∧
      s.engine.lastPrice = (prints.getLast?.map (·.price)).getD 0 ∧ s.Silent := by
  intro s prints
  have htape := TradeChain.run_tape (s := .start slots) (BookState.new_valid slots) hn
  obtain ⟨hmade, htape⟩ := Prod.mk.inj htape
  obtain ⟨htraded, hprice⟩ := Prod.mk.inj htape
  have hvalid := TradeChain.run_valid (s := .start slots) (BookState.new_valid slots) bodies
  exact ⟨htraded.trans (UInt64.zero_add _),
    congrArg UInt64.ofNat (hmade.trans (Nat.zero_add _)), hprice,
    TradeChain.silent hvalid⟩

theorem numbered_of_laidOut {m : BookMessage} (h : m.LaidOut body) (hn : m.payload.Numbered) :
    Numbered body := by
  intro m' h'
  rw [← ItchParser.reading_of_laidOut h', ItchParser.reading_of_laidOut h]
  exact hn

/-- A body of a payload, with zeros around it. -/
def plainBody (payload : BookPayload) : Body :=
  BookMessage.body [0, 0] [0, 0, 0, 0] ⟨1, 0, payload⟩

theorem plainBody_laidOut (payload : BookPayload) :
    (BookMessage.mk 1 0 payload).LaidOut (plainBody payload) :=
  BookMessage.body_laidOut _ rfl rfl

theorem numbered_plainBody {payloads : List BookPayload} (h : ∀ p ∈ payloads, p.Numbered) :
    ∀ body ∈ payloads.map plainBody, Numbered body :=
  List.forall_mem_map.2 fun p hp => numbered_of_laidOut (plainBody_laidOut p) (h p hp)

/-- A bid for ten shares, executed in three parts of which one is not printed, and a hidden trade
of seven. -/
def tradingDay : List BookPayload :=
  [.add 1 66 10 (Vector.replicate 8 32) 100, .executed 1 2 5, .executedWithPrice 1 3 6 78 101,
    .executedWithPrice 1 9 7 89 99, .trade 0 83 7 (Vector.replicate 8 32) 102 8]

theorem tradingDay_accounted :
    let s := (TradeChain.start (k := 1) (Vector.replicate 2 default)).run
      (tradingDay.map plainBody)
    let prints := (TradeChain.start (k := 1) (Vector.replicate 2 default)).prints
      (tradingDay.map plainBody)
    s.engine.sharesTraded = UInt64.ofNat (TradeChain.sharesPrinted prints) ∧
      UInt64.ofNat s.engine.matchesMade = UInt64.ofNat prints.length ∧
      s.engine.lastPrice = (prints.getLast?.map (·.price)).getD 0 ∧ s.Silent := by
  apply prints_accounted
  apply numbered_plainBody
  simp [tradingDay, BookPayload.Numbered]

example : (TradeChain.start (k := 1) (Vector.replicate 2 default)).prints
    (tradingDay.map plainBody) = [⟨2, 100⟩, ⟨5, 99⟩, ⟨7, 102⟩] := by
  decide +kernel

/-- A hidden trade of as many shares as a message can carry. -/
def largestPrint : BookPayload := .trade 0 66 4294967295 (Vector.replicate 8 32) 100 1

theorem sharesPrinted_largestPrints (n : Nat) (s : TradeChain k) :
    TradeChain.sharesPrinted (s.prints ((List.replicate n largestPrint).map plainBody)) =
      n * 4294967295 := by
  induction n generalizing s with
  | zero =>
    rw [Nat.zero_mul]
    rfl
  | succ n ih =>
    have hprint : s.print? (plainBody largestPrint) = some ⟨4294967295, 100⟩ :=
      TradeChain.print?_of_laidOut (plainBody_laidOut largestPrint)
    rw [List.replicate_succ, List.map_cons, TradeChain.prints, hprint, Nat.succ_mul,
      ← ih (s.receive (plainBody largestPrint)), Nat.add_comm]
    rfl

/-- More than `2 ^ 64` shares in `2 ^ 32 + 2` prints are not what the 64-bit counter shows. -/
theorem sharesPrinted_wrap :
    let bodies := (List.replicate (2 ^ 32 + 2) largestPrint).map plainBody
    let start := TradeChain.start (k := 0) (Vector.replicate 1 default)
    (∀ body ∈ bodies, Numbered body) ∧
      (start.run bodies).engine.sharesTraded.toNat ≠
        TradeChain.sharesPrinted (start.prints bodies) := by
  intro bodies start
  refine ⟨?_, ?_⟩
  · apply numbered_plainBody
    intro p hp
    have hmatch : (1 : UInt64) ≠ 0 := by decide
    rw [List.eq_of_mem_replicate hp]
    exact hmatch
  · have hlt := (start.run bodies).engine.sharesTraded.toNat_lt
    rw [sharesPrinted_largestPrints]
    omega

end Tickpipe
