import Tickpipe.Reception
import Tickpipe.Sender
import Tickpipe.Lib.Pairwise

set_option autoImplicit true

namespace Tickpipe

open UdpServer (session Call)

namespace Packet

def readNumbers (p : Packet) : List Nat := List.range' p.first (readable p.msgs).length

theorem readNumbers_subset (p : Packet) : p.readNumbers ⊆ p.numbers := by
  intro n hn
  have hlen : (readable p.msgs).length ≤ p.msgs.length := (List.takeWhile_sublist _).length_le
  have h := List.mem_range'_1.1 hn
  rw [mem_numbers, next]
  omega

/-- No sequence number stands in both datagrams. -/
def Apart (p q : Packet) : Prop :=
  ∀ m ∈ p.readNumbers, ∀ n ∈ q.readNumbers, m % 2 ^ 64 ≠ n % 2 ^ 64

instance (p q : Packet) : Decidable (Apart p q) :=
  inferInstanceAs (Decidable (∀ m ∈ p.readNumbers, ∀ n ∈ q.readNumbers, _))

theorem Apart.symm (h : Apart p q) : Apart q p :=
  fun m hm n hn he => h n hn m hm he.symm

theorem apart_self {p : Packet} : Apart p p ↔ readable p.msgs = [] := by
  constructor
  · intro h
    by_contra hne
    have hlen := List.length_pos_iff.2 hne
    have hmem : p.first ∈ p.readNumbers := List.mem_range'_1.2 ⟨le_rfl, by omega⟩
    exact h _ hmem _ hmem rfl
  · intro h m hm
    rw [readNumbers, h] at hm
    cases hm

end Packet

open Packet (Apart)

theorem map_fst_number_readable (p : Packet) :
    (number p.first (readable p.msgs)).map (·.1) = p.readNumbers.map UInt64.ofNat :=
  map_fst_number _ _

theorem ofNat_eq_iff (m n : Nat) : UInt64.ofNat m = UInt64.ofNat n ↔ m % 2 ^ 64 = n % 2 ^ 64 := by
  rw [← UInt64.toNat_inj, UInt64.toNat_ofNat', UInt64.toNat_ofNat']

theorem nodup_readNumbers (p : Packet) : (p.readNumbers.map UInt64.ofNat).Nodup := by
  refine List.Nodup.map_on ?_ List.nodup_range'
  intro m hm n hn he
  rw [ofNat_eq_iff] at he
  have hm := Packet.mem_numbers.1 (p.readNumbers_subset hm)
  have hn := Packet.mem_numbers.1 (p.readNumbers_subset hn)
  have hcount := p.count_lt
  rw [Packet.next] at hm hn
  omega

theorem apart_iff_disjoint (p q : Packet) :
    Apart p q ↔
      List.Disjoint (p.readNumbers.map UInt64.ofNat) (q.readNumbers.map UInt64.ofNat) := by
  constructor
  · intro h x hp hq
    obtain ⟨m, hm, rfl⟩ := List.mem_map.1 hp
    obtain ⟨n, hn, he⟩ := List.mem_map.1 hq
    exact h m hm n hn ((ofNat_eq_iff m n).1 he.symm)
  · intro h m hm n hn he
    refine h (List.mem_map_of_mem hm) ?_
    rw [(ofNat_eq_iff m n).2 he]
    exact List.mem_map_of_mem hn

/-- Nothing is handed on twice as long as the datagrams that come in share no number. -/
theorem nodup_handed_iff (directory : Option SymbolDirectory) (arrivals : List Packet) :
    ((UdpReceiver.receiveAll { directory } (arrivals.map (·.encode session))).handed.map
        (·.1)).Nodup ↔
      (arrivals.filter fun p => readable p.msgs ≠ []).Nodup ∧
        ∀ p ∈ arrivals, ∀ q ∈ arrivals, p ≠ q → Apart p q := by
  have hfun : (fun p : Packet => (number p.first (readable p.msgs)).map (·.1)) =
      fun p => p.readNumbers.map UInt64.ofNat :=
    funext map_fst_number_readable
  have hfilter : (arrivals.filter fun p => ¬ Apart p p) =
      arrivals.filter fun p => readable p.msgs ≠ [] :=
    List.filter_congr fun p _ => decide_eq_decide.2 (not_congr Packet.apart_self)
  have hpair : arrivals.Pairwise (Function.onFun List.Disjoint fun p : Packet =>
      p.readNumbers.map UInt64.ofNat) ↔ arrivals.Pairwise Apart :=
    List.Pairwise.iff fun p q => (apart_iff_disjoint p q).symm
  rw [UdpReceiver.handed_receiveAll, List.nil_append, List.map_flatMap, hfun, List.nodup_flatMap]
  rw [← hfilter, ← Pairwise.pairwise_iff_nodup_filter (R := Apart) fun _ _ => Apart.symm, ← hpair]
  exact ⟨fun h => h.2, fun h => ⟨fun p _ => nodup_readNumbers p, h⟩⟩

theorem apart_of_few {k : Packer} (h : k.Inv) (hfew : k.packed.length < 2 ^ 64) (hp : p ∈ k.sent)
    (hq : q ∈ k.sent) (hne : p ≠ q) : Apart p q := by
  have hdisjoint := Pairwise.rel_or_rel h.ascending hp hq hne
  intro m hm n hn
  have hm := Packet.mem_numbers.1 (p.readNumbers_subset hm)
  have hn := Packet.mem_numbers.1 (q.readNumbers_subset hn)
  have hpb := h.bounds hp
  have hqb := h.bounds hq
  omega

/-- Messages are handed on at most once exactly when no datagram that can be read comes in twice
and, once the 64-bit numbers have wrapped, no two that come in share a number. -/
theorem delivered_at_most_once_iff (sendto : Nat → Bool) (calls : List Call) :
    (UdpServer.run sendto {} calls).emitted =
        (Packer.run sendto {} calls).sent.map (·.encode session) ∧
      ∀ arrivals ⊆ (Packer.run sendto {} calls).sent, ∀ directory,
        (((UdpReceiver.receiveAll { directory } (arrivals.map (·.encode session))).handed.map
            (·.1)).Nodup ↔
          (arrivals.filter fun p => readable p.msgs ≠ []).Nodup ∧
            ((Packer.run sendto {} calls).packed.length < 2 ^ 64 ∨
              ∀ p ∈ arrivals, ∀ q ∈ arrivals, p ≠ q → Apart p q)) := by
  have hinv := Packer.inv_empty.run sendto calls
  refine ⟨(Refines.empty.run sendto calls).emitted, ?_⟩
  intro arrivals hsub directory
  rw [nodup_handed_iff]
  constructor
  · intro h
    exact ⟨h.1, Or.inr h.2⟩
  · intro ⟨hnodup, h⟩
    refine ⟨hnodup, ?_⟩
    rcases h with hfew | h
    · intro p hp q hq hne
      exact apart_of_few hinv hfew (hsub hp) (hsub hq) hne
    · exact h

def execution : Body :=
  [69, 0, 1, 0, 0, 0, 0, 0, 0, 0, 5, 0, 0, 0, 0, 0, 0, 0, 7, 0, 0, 0, 100, 0, 0, 0, 0, 0, 0, 0, 9]

def oneExecution : List Call := [.send execution, .flush]

def fiveExecutions : List Call :=
  [.send execution, .send execution, .flush, .send execution, .flush, .send execution,
    .send execution, .flush]

/-- The second datagram is lost, and the last one overtakes the first. -/
def overtaken : List Packet :=
  ((Packer.run (fun _ => true) {} fiveExecutions).sent.eraseIdx 1).reverse

theorem overtaken_handed_once :
    let handed := (UdpReceiver.receiveAll {} (overtaken.map (·.encode session))).handed.map (·.1)
    handed = [4, 5, 1, 2] ∧ handed.Nodup := by
  have hsub : overtaken ⊆ (Packer.run (fun _ => true) {} fiveExecutions).sent := by
    intro p hp
    exact List.mem_of_mem_eraseIdx (List.mem_reverse.1 hp)
  have h := (delivered_at_most_once_iff (fun _ => true) fiveExecutions).2 _ hsub none
  exact ⟨by decide +kernel, h.2 ⟨by decide +kernel, Or.inl (by decide +kernel)⟩⟩

/-- A datagram that comes in a second time is counted as out of order and executes once more. -/
theorem second_copy_executes :
    ¬ ∀ sendto calls, ∀ bufs ⊆ (UdpServer.run sendto {} calls).emitted, ∀ directory,
      ((UdpReceiver.receiveAll { directory } bufs).handed.map (·.1)).Nodup := by
  intro h
  let emitted := (UdpServer.run (fun _ => true) {} oneExecution).emitted
  have hsub : emitted ++ emitted ⊆ emitted := fun buf hb => (List.mem_append.1 hb).elim id id
  have hnodup := h _ _ _ hsub none
  revert hnodup
  decide +kernel

end Tickpipe
