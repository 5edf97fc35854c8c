import Tickpipe.Mold
import Tickpipe.UdpServer

set_option autoImplicit true

namespace Tickpipe

open UdpServer (maxPayload Call)

theorem fits_nil : (framed []).length ≤ maxPayload := Nat.zero_le _

/-- The sender as a packer: what was handed to the socket and how that went, and the messages
still waiting. It numbers messages from 1 on by their place alone. -/
structure Packer where
  log : List (Packet × Bool) := []
  pending : List Body := []
  fits : (framed pending).length ≤ maxPayload := by exact fits_nil

/-- The messages passed to `send_message`. -/
def passed (calls : List Call) : List Body :=
  calls.filterMap fun
    | .send m => some m
    | .flush => none

theorem passed_append (calls calls' : List Call) :
    passed (calls ++ calls') = passed calls ++ passed calls' := List.filterMap_append

theorem passed_send (m : Body) (calls : List Call) :
    passed (.send m :: calls) = m :: passed calls := rfl

namespace Packer

def packed (k : Packer) : List Body := k.log.flatMap (·.1.msgs)

def accepted (k : Packer) : List Body := k.packed ++ k.pending

def packet (k : Packer) : Packet where
  first := 1 + k.packed.length
  msgs := k.pending
  count_lt := by
    have h := length_framed_le k.pending
    have hfits := k.fits
    rw [maxPayload] at hfits
    omega
  length_lt m hm := by
    have h := length_le_framed hm
    have hfits := k.fits
    rw [maxPayload] at hfits
    omega

def flush (ok : Bool) (k : Packer) : Packer :=
  if k.pending = [] then k else { log := k.log ++ [(k.packet, ok)] }

/-- The message still fits behind the waiting ones. -/
def Room (k : Packer) (m : Body) : Prop :=
  (framed k.pending).length + (2 + m.length) ≤ maxPayload

instance (k : Packer) (m : Body) : Decidable (k.Room m) :=
  inferInstanceAs (Decidable (_ ≤ _))

def add (k : Packer) (m : Body) (h : k.Room m) : Packer where
  log := k.log
  pending := k.pending ++ [m]
  fits := by
    have h2 : (writeBe16 (UInt16.ofNat m.length)).length = 2 := rfl
    rw [framed_append, framed_cons, framed_nil, List.append_nil, List.length_append,
      List.length_append, h2]
    exact h

@[simp] theorem pending_flush (ok : Bool) (k : Packer) : (k.flush ok).pending = [] := by
  rw [flush]
  split
  · assumption
  · rfl

theorem room_flush (ok : Bool) (k : Packer) (m : Body) (h : 2 + m.length ≤ maxPayload) :
    (k.flush ok).Room m := by
  rw [Room, pending_flush, framed_nil, List.length_nil, Nat.zero_add]
  exact h

/-- A message of any size is taken, but for one too large for an empty datagram and one that
comes when the datagram it has to push out cannot be sent. -/
def send (ok : Bool) (m : Body) (k : Packer) : Packer :=
  if h : 2 + m.length ≤ maxPayload then
    if hr : k.Room m then k.add m hr
    else if ok then (k.flush ok).add m (k.room_flush ok m h) else k.flush ok
  else k

def call (sendto : Nat → Bool) (k : Packer) : Call → Packer
  | .send m => k.send (sendto k.log.length) m
  | .flush => k.flush (sendto k.log.length)

def run (sendto : Nat → Bool) (k : Packer) (calls : List Call) : Packer :=
  calls.foldl (call sendto) k

def sent (k : Packer) : List Packet := (k.log.filter (·.2)).map (·.1)

@[simp] theorem accepted_add (k : Packer) (m : Body) (h : k.Room m) :
    (k.add m h).accepted = k.accepted ++ [m] := (List.append_assoc _ _ _).symm

@[simp] theorem accepted_flush (ok : Bool) (k : Packer) : (k.flush ok).accepted = k.accepted := by
  rw [flush]
  split
  · rfl
  · rw [accepted, accepted, packed, packed, List.flatMap_append, List.append_nil]
    exact congrArg (_ ++ ·) (List.append_nil _)

/-- What a call leaves of the packer: a message taken, and before that perhaps a flush. -/
theorem call_cases (sendto : Nat → Bool) (k : Packer) (c : Call) :
    k.call sendto c = k ∨
      k.call sendto c = k.flush (sendto k.log.length) ∨
      (∃ m h, c = .send m ∧ k.call sendto c = k.add m h) ∨
      ∃ m h, c = .send m ∧ k.call sendto c = (k.flush (sendto k.log.length)).add m h := by
  cases c with
  | flush => exact Or.inr (Or.inl rfl)
  | send m =>
    rw [call, send]
    split
    case isTrue h =>
      split
      case isTrue hr => exact Or.inr (Or.inr (Or.inl ⟨m, hr, rfl, rfl⟩))
      case isFalse =>
        split
        · exact Or.inr (Or.inr (Or.inr ⟨m, k.room_flush _ m h, rfl, rfl⟩))
        · exact Or.inr (Or.inl rfl)
    case isFalse => exact Or.inl rfl

end Packer

/-- Datagrams whose numbers follow one another without a hole, from `n` on. -/
def Consecutive : Nat → List Packet → Prop
  | _, [] => True
  | n, p :: ps => p.first = n ∧ Consecutive p.next ps

theorem consecutive_append_cons (n : Nat) (ps : List Packet) (p : Packet) (qs : List Packet) :
    Consecutive n (ps ++ p :: qs) ↔
      Consecutive n ps ∧ p.first = n + (ps.flatMap (·.msgs)).length ∧ Consecutive p.next qs := by
  induction ps generalizing n with
  | nil => exact ⟨fun h => ⟨trivial, h⟩, fun h => h.2⟩
  | cons q ps ih =>
    have hsum (hq : q.first = n) : n + ((q :: ps).flatMap (·.msgs)).length =
        q.next + (ps.flatMap (·.msgs)).length := by
      rw [List.flatMap_cons, List.length_append, Packet.next, hq, Nat.add_assoc]
    constructor
    · intro h
      have h' := (ih q.next).1 h.2
      exact ⟨⟨h.1, h'.1⟩, by rw [hsum h.1]; exact h'.2.1, h'.2.2⟩
    · intro h
      refine ⟨h.1.1, (ih q.next).2 ⟨h.1.2, ?_, h.2.2⟩⟩
      rw [← hsum h.1.1]
      exact h.2.1

theorem Consecutive.le_first (h : Consecutive n ps) (hp : p ∈ ps) : n ≤ p.first := by
  induction ps generalizing n with
  | nil => cases hp
  | cons q ps ih =>
    rcases List.mem_cons.1 hp with rfl | hp
    · exact h.1.ge
    · have hq := ih h.2 hp
      have hnext : q.next = q.first + q.msgs.length := rfl
      have hfirst := h.1
      omega

/-- Each datagram begins where an earlier one has ended, or later. -/
theorem Consecutive.ascending (h : Consecutive n ps) :
    ps.Pairwise fun p q => p.next ≤ q.first := by
  induction ps generalizing n with
  | nil => exact List.Pairwise.nil
  | cons p ps ih => exact List.Pairwise.cons (fun q hq => h.2.le_first hq) (ih h.2)

theorem Consecutive.next_le (h : Consecutive n ps) (hp : p ∈ ps) :
    p.next ≤ n + (ps.flatMap (·.msgs)).length := by
  induction ps generalizing n with
  | nil => cases hp
  | cons q ps ih =>
    have hnext : q.next = q.first + q.msgs.length := rfl
    have hfirst := h.1
    rw [List.flatMap_cons, List.length_append]
    rcases List.mem_cons.1 hp with rfl | hp
    · omega
    · have hq := ih h.2 hp
      omega

namespace Packer

/-- What every datagram of the log is like. -/
structure Inv (k : Packer) : Prop where
  consecutive : Consecutive 1 (k.log.map (·.1))
  nonempty : ∀ x ∈ k.log, x.1.msgs ≠ []
  size : ∀ x ∈ k.log, (framed x.1.msgs).length ≤ maxPayload

theorem inv_empty : Inv {} := ⟨trivial, by simp, by simp⟩

theorem sent_sublist (k : Packer) : k.sent.Sublist (k.log.map (·.1)) :=
  List.filter_sublist.map _

theorem mem_packed (k : Packer) (hp : p ∈ k.sent) (hm : m ∈ p.msgs) : m ∈ k.packed := by
  obtain ⟨x, hx, rfl⟩ := List.mem_map.1 (k.sent_sublist.subset hp)
  exact List.mem_flatMap.2 ⟨x, hx, hm⟩

theorem Inv.ascending (h : Inv k) : k.sent.Pairwise fun p q => p.next ≤ q.first :=
  h.consecutive.ascending.sublist k.sent_sublist

theorem Inv.bounds (h : Inv k) (hp : p ∈ k.sent) :
    1 ≤ p.first ∧ p.next ≤ 1 + k.packed.length := by
  have hlog := k.sent_sublist.subset hp
  have hle := h.consecutive.next_le hlog
  rw [List.flatMap_map] at hle
  exact ⟨h.consecutive.le_first hlog, hle⟩

theorem Inv.sent_nonempty (h : Inv k) (hp : p ∈ k.sent) : p.msgs ≠ [] := by
  obtain ⟨x, hx, rfl⟩ := List.mem_map.1 (k.sent_sublist.subset hp)
  exact h.nonempty x hx

theorem Inv.flush (h : Inv k) (ok : Bool) : Inv (k.flush ok) := by
  rw [Packer.flush]
  split
  case isTrue => exact h
  case isFalse hne =>
    refine ⟨?_, ?_, ?_⟩
    · rw [List.map_append, List.map_singleton, consecutive_append_cons]
      refine ⟨h.consecutive, ?_, trivial⟩
      rw [List.flatMap_map]
      rfl
    · intro x hx
      rcases List.mem_append.1 hx with hx | hx
      · exact h.nonempty x hx
      · rw [List.mem_singleton.1 hx]
        exact hne
    · intro x hx
      rcases List.mem_append.1 hx with hx | hx
      · exact h.size x hx
      · rw [List.mem_singleton.1 hx]
        exact k.fits

theorem Inv.add (h : Inv k) (m : Body) (hr : k.Room m) : Inv (k.add m hr) :=
  ⟨h.consecutive, h.nonempty, h.size⟩

theorem Inv.call (h : Inv k) (sendto : Nat → Bool) (c : Call) : Inv (k.call sendto c) := by
  rcases k.call_cases sendto c with hc | hc | ⟨m, hr, -, hc⟩ | ⟨m, hr, -, hc⟩
  · rw [hc]
    exact h
  · rw [hc]
    exact h.flush _
  · rw [hc]
    exact h.add m hr
  · rw [hc]
    exact (h.flush _).add m hr

theorem Inv.run (h : Inv k) (sendto : Nat → Bool) (calls : List Call) :
    Inv (k.run sendto calls) := by
  induction calls generalizing k with
  | nil => exact h
  | cons c calls ih => exact ih (h.call sendto c)

theorem log_cases (sendto : Nat → Bool) (k : Packer) (c : Call) :
    (k.call sendto c).log = k.log ∨
      (k.call sendto c).log = k.log ++ [(k.packet, sendto k.log.length)] := by
  have hflush : (k.flush (sendto k.log.length)).log = k.log ∨
      (k.flush (sendto k.log.length)).log = k.log ++ [(k.packet, sendto k.log.length)] := by
    rw [flush]
    split
    · exact Or.inl rfl
    · exact Or.inr rfl
  rcases k.call_cases sendto c with hc | hc | ⟨m, hr, -, hc⟩ | ⟨m, hr, -, hc⟩
  · exact Or.inl (congrArg log hc)
  · rw [hc]
    exact hflush
  · rw [hc]
    exact Or.inl rfl
  · rw [hc]
    exact hflush

theorem mem_log_call (sendto : Nat → Bool) (k : Packer) (c : Call)
    (hx : x ∈ (k.call sendto c).log) : x ∈ k.log ∨ x.2 = sendto k.log.length := by
  rcases k.log_cases sendto c with hc | hc
  · rw [hc] at hx
    exact Or.inl hx
  · rw [hc, List.mem_append, List.mem_singleton] at hx
    exact hx.imp_right fun hx => congrArg Prod.snd hx

theorem log_sent {k : Packer} (h : ∀ x ∈ k.log, x.2 = true) (calls : List Call) :
    ∀ x ∈ (k.run (fun _ => true) calls).log, x.2 = true := by
  induction calls generalizing k with
  | nil => exact h
  | cons c calls ih =>
    refine ih fun x hx => ?_
    rcases k.mem_log_call _ c hx with hx | hx
    · exact h x hx
    · exact hx

theorem sent_eq {k : Packer} (h : ∀ x ∈ k.log, x.2 = true) : k.sent = k.log.map (·.1) := by
  rw [sent, List.filter_eq_self.2 h]

theorem flatMap_sent {k : Packer} (h : ∀ x ∈ k.log, x.2 = true) :
    k.sent.flatMap (·.msgs) = k.packed := by
  rw [sent_eq h, List.flatMap_map]
  rfl

/-- A message that fits a datagram is taken unless it comes to a full one that cannot be sent. -/
theorem accepted_send (ok : Bool) (h : 2 + m.length ≤ maxPayload) (k : Packer) :
    (k.send ok m).accepted =
      if k.Room m ∨ ok = true then k.accepted ++ [m] else k.accepted := by
  rw [send, dif_pos h]
  by_cases hr : k.Room m
  · rw [dif_pos hr, if_pos (Or.inl hr), accepted_add]
  · cases ok with
    | true => rw [dif_neg hr, if_pos rfl, if_pos (Or.inr rfl), accepted_add, accepted_flush]
    | false =>
      rw [dif_neg hr, if_neg Bool.false_ne_true, accepted_flush,
        if_neg fun h => h.elim hr Bool.false_ne_true]

/-- Nothing but what was passed is taken. -/
theorem accepted_run_sublist (sendto : Nat → Bool) (calls : List Call) (k : Packer) :
    (k.run sendto calls).accepted.Sublist (k.accepted ++ passed calls) := by
  induction calls generalizing k with
  | nil => exact List.sublist_append_left _ _
  | cons c calls ih =>
    refine (ih (k.call sendto c)).trans ?_
    have hstep : (k.call sendto c).accepted.Sublist (k.accepted ++ passed [c]) := by
      rcases k.call_cases sendto c with hc | hc | ⟨m, hr, rfl, hc⟩ | ⟨m, hr, rfl, hc⟩
      · rw [hc]
        exact List.sublist_append_left _ _
      · rw [hc, accepted_flush]
        exact List.sublist_append_left _ _
      · rw [hc, accepted_add]
        exact List.Sublist.refl _
      · rw [hc, accepted_add, accepted_flush]
        exact List.Sublist.refl _
    have hpassed : passed (c :: calls) = passed [c] ++ passed calls := passed_append [c] calls
    rw [hpassed, ← List.append_assoc]
    exact hstep.append (List.Sublist.refl _)

theorem accepted_run (calls : List Call) (h : ∀ m ∈ passed calls, 2 + m.length ≤ maxPayload)
    (k : Packer) : (k.run (fun _ => true) calls).accepted = k.accepted ++ passed calls := by
  induction calls generalizing k with
  | nil => exact (List.append_nil _).symm
  | cons c calls ih =>
    cases c with
    | flush =>
      refine (ih h _).trans ?_
      rw [call, accepted_flush]
      rfl
    | send m =>
      have hm : 2 + m.length ≤ maxPayload := h m List.mem_cons_self
      have hcall : (k.call (fun _ => true) (.send m)).accepted = k.accepted ++ [m] := by
        rw [call, accepted_send _ hm, if_pos (Or.inr rfl)]
      refine (ih (fun m' hm' => h m' (List.mem_cons_of_mem _ hm')) _).trans ?_
      rw [hcall, List.append_assoc]
      rfl

end Packer

end Tickpipe
