import Tickpipe.ShareConservation

set_option autoImplicit true

namespace Tickpipe
namespace BookState

variable {k : Nat}

/-- The counters that one call of `resolve` raises, the gauges left out. -/
def Stats.calls (s : Stats) : Nat :=
  s.adds + s.executes + s.cancels + s.deletes + s.replaces + s.trades + s.unresolved + s.tableFull

/-- The table was read or thinned out: only the gauges moved, and none to a new peak. -/
structure Stats.Drains (k : Nat) (s s' : Stats) : Prop where
  counters : s' = { s with live := s'.live, maxProbe := s'.maxProbe }
  live : s'.live ≤ s.live
  probe : s.maxProbe < 2 ^ k → s'.maxProbe < 2 ^ k

theorem Stats.Drains.refl (s : Stats) : s.Drains k s := ⟨rfl, Nat.le_refl _, id⟩

/-- The counters before and after some messages, for the operations that they emitted. -/
structure Stats.Tallies (k : Nat) (s s' : Stats) (msgs : List Order) (ops : List ResolvedOp) :
    Prop where
  calls : s'.calls = s.calls + msgs.countP (·.action ≠ .none)
  added : s'.adds + s'.replaces = s.adds + s.replaces + ops.countP (·.action = .add)
  executed : s'.executes = s.executes + ops.countP (·.action = .execute)
  cancelled : s'.cancels = s.cancels + ops.countP (·.action = .cancel)
  traded : s'.trades = s.trades + ops.countP (·.action = .trade)
  deleted : s'.adds + s'.deletes + s'.replaces + s'.tableFull =
    s.adds + s.deletes + s.replaces + s.tableFull + ops.countP (·.action = .delete) +
      msgs.countP (·.action = .add)
  refused : s.tableFull ≤ s'.tableFull
  probe : s.maxProbe < 2 ^ k → s'.maxProbe < 2 ^ k

theorem Stats.Tallies.refl (s : Stats) : s.Tallies k s [] [] :=
  ⟨rfl, rfl, rfl, rfl, rfl, rfl, Nat.le_refl _, id⟩

theorem Stats.Tallies.append (h : Stats.Tallies k s t msgs ops)
    (h' : t.Tallies k u msgs' ops') : s.Tallies k u (msgs ++ msgs') (ops ++ ops') where
  calls := by rw [h'.calls, h.calls, List.countP_append, Nat.add_assoc]
  added := by rw [h'.added, h.added, List.countP_append, Nat.add_assoc]
  executed := by rw [h'.executed, h.executed, List.countP_append, Nat.add_assoc]
  cancelled := by rw [h'.cancelled, h.cancelled, List.countP_append, Nat.add_assoc]
  traded := by rw [h'.traded, h.traded, List.countP_append, Nat.add_assoc]
  deleted := by
    have hd := h.deleted
    have hd' := h'.deleted
    rw [List.countP_append, List.countP_append]
    omega
  refused := Nat.le_trans h.refused h'.refused
  probe hp := h'.probe (h.probe hp)

/-- Draining the table before the counters are raised goes unnoticed by them. -/
theorem Stats.Drains.tallies (h : Stats.Drains k s t) (h' : t.Tallies k u msgs ops) :
    s.Tallies k u msgs ops := by
  have hc := h.counters
  have htallies := h'
  rw [hc] at htallies
  exact { htallies with probe := fun hp => h'.probe (h.probe hp) }

variable (b : BookState k)

theorem findLoop_probes (h : b.findLoop ref fuel idx probes = some (found, n)) :
    n < probes + fuel := by
  induction fuel generalizing idx probes with
  | zero => cases h
  | succ fuel ih =>
    rw [findLoop] at h
    split at h
    case h_1 => cases h
    case h_2 =>
      split at h
      · cases h
        omega
      · have hn := ih h
        omega
    case h_3 =>
      have hn := ih h
      omega

theorem insertLoop_probes (h : b.insertLoop ref fuel idx probes reuse = .place slot n) :
    n < probes + fuel := by
  induction fuel generalizing idx probes reuse with
  | zero => cases h
  | succ fuel ih =>
    rw [insertLoop] at h
    split at h
    case h_1 =>
      cases h
      omega
    case h_2 =>
      split at h
      · cases h
      · have hn := ih h
        omega
    case h_3 =>
      have hn := ih h
      omega

theorem find_drains (ref : UInt64) : b.stats.Drains k (b.find ref).2.stats := by
  rw [find]
  split
  · next hf =>
    have hn := findLoop_probes b hf
    refine ⟨rfl, Nat.le_refl _, fun hp => ?_⟩
    rw [Nat.zero_add] at hn
    exact Nat.max_lt.2 ⟨hp, hn⟩
  · exact .refl _

theorem erase_drains (ref : UInt64) : b.stats.Drains k (b.erase ref).2.stats := by
  rw [erase]
  split
  · exact ⟨rfl, Nat.sub_le _ _, id⟩
  · exact .refl _

theorem take_drains (ref : UInt64) (idx : Fin (2 ^ k)) (n : UInt32) :
    b.stats.Drains k (b.take ref idx n).stats := by
  rw [take]
  split
  · exact (b.reduce idx n).erase_drains ref
  · exact .refl _

/-- An insertion that found room raises gauges only, one that found none counts itself. -/
theorem insert_stats (ro : RestingOrder) :
    ((b.insert ro).1 = true ∧ ((b.insert ro).2.stats = b.stats ∨
      ∃ probes < 2 ^ k, (b.insert ro).2.stats = b.stats.countLive probes)) ∨
    ((b.insert ro).1 = false ∧
      (b.insert ro).2.stats = { b.stats with tableFull := b.stats.tableFull + 1 }) := by
  rw [insert]
  split
  · exact .inl ⟨rfl, .inl rfl⟩
  · exact .inr ⟨rfl, rfl⟩
  · next hplace =>
    have hn := insertLoop_probes b hplace
    rw [Nat.zero_add] at hn
    exact .inl ⟨rfl, .inr ⟨_, hn, rfl⟩⟩

/-- The peak follows the number of live orders. -/
def Stats.Peaks (s s' : Stats) : Prop :=
  s.live ≤ s.peakLive → s'.peakLive = max s.peakLive s'.live

theorem Stats.Drains.peaks (h : Stats.Drains k s t) (h' : t.Peaks u) : s.Peaks u := by
  intro hs
  have hpeak : t.peakLive = s.peakLive := by rw [h.counters]
  have hlive := h.live
  rw [← hpeak]
  exact h' (by omega)

/-- What one message does to the statistics. -/
structure Stats.Counts (k : Nat) (s s' : Stats) (msg : Order) (out : Option (List ResolvedOp)) :
    Prop where
  tallies : s.Tallies k s' [msg] (out.getD [])
  peaks : s.Peaks s'

theorem Stats.Drains.counts (h : Stats.Drains k s t) (h' : t.Counts k u msg out) :
    s.Counts k u msg out :=
  ⟨h.tallies h'.tallies, h.peaks h'.peaks⟩

theorem unresolved_counts (hn : msg.action ≠ .none) (ha : msg.action ≠ .add) :
    b.stats.Counts k b.countUnresolved.stats msg none where
  tallies := by
    constructor <;> simp [countUnresolved, Stats.calls, hn, ha]
    omega
  peaks h := (Nat.max_eq_left h).symm

theorem resolveTake_counts (hn : msg.action ≠ .none) (ha : msg.action ≠ .add)
    (htaken : ∀ (s : Stats) (ro : RestingOrder) (n : UInt32),
      s.Counts k (count s) msg (some [op ro n])) :
    b.stats.Counts k (b.resolveTake msg op count).2.stats msg (b.resolveTake msg op count).1 := by
  have hfind := b.find_drains msg.orderRef
  rw [resolveTake]
  split
  case h_1 b' hf =>
    rw [hf] at hfind
    exact hfind.counts (b'.unresolved_counts hn ha)
  case h_2 idx b' hf =>
    rw [hf] at hfind
    have htake := b'.take_drains msg.orderRef idx (taken msg (b'.slots.get idx))
    exact hfind.counts (htake.counts (htaken _ _ _))

theorem resolveExecute_counts (ha : msg.action = .execute) :
    b.stats.Counts k (b.resolveExecute msg).2.stats msg (b.resolveExecute msg).1 := by
  refine b.resolveTake_counts (by simp [ha]) (by simp [ha]) fun s ro n => ⟨?_, ?_⟩
  · constructor <;> simp [Stats.calls, ha]
    omega
  · exact fun h => (Nat.max_eq_left h).symm

theorem resolveCancel_counts (ha : msg.action = .cancel) :
    b.stats.Counts k (b.resolveCancel msg).2.stats msg (b.resolveCancel msg).1 := by
  refine b.resolveTake_counts (by simp [ha]) (by simp [ha]) fun s ro n => ⟨?_, ?_⟩
  · constructor <;> simp [Stats.calls, ha]
    omega
  · exact fun h => (Nat.max_eq_left h).symm

theorem resolveDelete_counts (ha : msg.action = .delete) :
    b.stats.Counts k (b.resolveDelete msg).2.stats msg (b.resolveDelete msg).1 := by
  have hfind := b.find_drains msg.orderRef
  rw [resolveDelete]
  split
  case h_1 b' hf =>
    rw [hf] at hfind
    exact hfind.counts (b'.unresolved_counts (by simp [ha]) (by simp [ha]))
  case h_2 idx b' hf =>
    rw [hf] at hfind
    refine hfind.counts ((b'.erase_drains msg.orderRef).counts ⟨?_, ?_⟩)
    · constructor <;> simp [Stats.calls, ha] <;> omega
    · exact fun h => (Nat.max_eq_left h).symm

theorem resolveTrade_counts (ha : msg.action = .trade) :
    b.stats.Counts k (b.resolveTrade msg).2.stats msg (b.resolveTrade msg).1 where
  tallies := by
    constructor <;> simp [resolveTrade, Stats.calls, ha]
    omega
  peaks h := (Nat.max_eq_left h).symm

theorem resolveAdd_counts (ha : msg.action = .add) :
    b.stats.Counts k (b.resolveAdd msg).2.stats msg (b.resolveAdd msg).1 := by
  have hinsert := b.insert_stats ⟨msg.orderRef, msg.quantity, msg.price, msg.side, msg.stock⟩
  rw [resolveAdd]
  split
  case h_1 b' hi =>
    rw [hi] at hinsert
    obtain ⟨hfalse, -⟩ | ⟨-, hfull⟩ := hinsert
    · cases hfalse
    · rw [hfull]
      refine ⟨?_, fun h => (Nat.max_eq_left h).symm⟩
      constructor <;> simp [Stats.calls, ha] <;> omega
  case h_2 b' hi =>
    rw [hi] at hinsert
    obtain ⟨-, hstats | ⟨probes, hp, hstats⟩⟩ | ⟨hfalse, -⟩ := hinsert
    · rw [hstats]
      refine ⟨?_, fun h => (Nat.max_eq_left h).symm⟩
      constructor <;> simp [Stats.calls, ha] <;> omega
    · rw [hstats]
      refine ⟨?_, fun _ => rfl⟩
      constructor <;> simp [Stats.calls, Stats.countLive, ha, hp] <;> omega
    · cases hfalse

theorem resolveReplace_counts (ha : msg.action = .replace) :
    b.stats.Counts k (b.resolveReplace msg).2.stats msg (b.resolveReplace msg).1 := by
  have hfind := b.find_drains msg.orderRef
  rw [resolveReplace]
  split
  case h_1 b' hf =>
    rw [hf] at hfind
    exact hfind.counts (b'.unresolved_counts (by simp [ha]) (by simp [ha]))
  case h_2 idx b' hf =>
    rw [hf] at hfind
    refine hfind.counts ((b'.erase_drains msg.orderRef).counts ?_)
    have hinsert := (b'.erase msg.orderRef).2.insert_stats (OrderMap.renew msg (b'.slots.get idx))
    rw [OrderMap.renew] at hinsert
    dsimp only
    split
    case h_1 b'' hi =>
      rw [hi] at hinsert
      obtain ⟨hfalse, -⟩ | ⟨-, hfull⟩ := hinsert
      · cases hfalse
      · rw [hfull]
        refine ⟨?_, fun h => (Nat.max_eq_left h).symm⟩
        constructor <;> simp [Stats.calls, ha] <;> omega
    case h_2 b'' hi =>
      rw [hi] at hinsert
      obtain ⟨-, hstats | ⟨probes, hp, hstats⟩⟩ | ⟨hfalse, -⟩ := hinsert
      · rw [hstats]
        refine ⟨?_, fun h => (Nat.max_eq_left h).symm⟩
        constructor <;> simp [Stats.calls, ha] <;> omega
      · rw [hstats]
        refine ⟨?_, fun _ => rfl⟩
        constructor <;> simp [Stats.calls, Stats.countLive, ha, hp] <;> omega
      · cases hfalse

theorem resolve_counts (msg : Order) :
    b.stats.Counts k (b.resolve msg).2.stats msg (b.resolve msg).1 := by
  have himpl : b.stats.Counts k (b.resolveImpl msg).2.stats msg (b.resolveImpl msg).1 := by
    rw [resolveImpl]
    cases ha : msg.action with
    | none =>
      refine ⟨?_, fun h => (Nat.max_eq_left h).symm⟩
      constructor <;> simp [ha]
    | add => exact b.resolveAdd_counts ha
    | execute => exact b.resolveExecute_counts ha
    | cancel => exact b.resolveCancel_counts ha
    | delete => exact b.resolveDelete_counts ha
    | replace => exact b.resolveReplace_counts ha
    | trade => exact b.resolveTrade_counts ha
  rw [resolve]
  split
  case h_1 h => rwa [h] at himpl
  case h_2 h => rwa [h] at himpl

theorem run_tallies (msgs : List Order) :
    b.stats.Tallies k (Mealy.after resolve b msgs).stats msgs (b.opsOf msgs) := by
  induction msgs generalizing b with
  | nil => exact .refl _
  | cons msg msgs ih => exact (b.resolve_counts msg).tallies.append (ih (b.resolve msg).2)

end BookState

/-- The statistics account for a run: every message raises one counter, the operations emitted of
each kind are those counted, the peak is the highest number of live orders there ever was after a
message, and no order sits a whole table away from its home slot. -/
theorem stats_account_for_run (slots : Vector RestingOrder (2 ^ k)) (msgs : List Order) :
    let s := (Mealy.after BookState.resolve (.new slots) msgs).stats
    let ops := (BookState.new slots).opsOf msgs
    msgs.countP (·.action ≠ .none) = s.adds + s.executes + s.cancels + s.deletes + s.replaces +
      s.trades + s.unresolved + s.tableFull ∧
    ops.countP (·.action = .add) = s.adds + s.replaces ∧
    ops.countP (·.action = .execute) = s.executes ∧
    ops.countP (·.action = .cancel) = s.cancels ∧
    ops.countP (·.action = .trade) = s.trades ∧
    ops.countP (·.action = .delete) + msgs.countP (·.action = .add) =
      s.adds + s.deletes + s.replaces + s.tableFull ∧
    IsGreatest {n | ∃ j, (Mealy.after BookState.resolve (.new slots) (msgs.take j)).stats.live = n}
      s.peakLive ∧
    s.maxProbe < 2 ^ k := by
  intro s ops
  have htallies : BookState.Stats.Tallies k {} s msgs ops := (BookState.new slots).run_tallies msgs
  have hpeak := Mealy.peak_isGreatest
    (fun b msg => (BookState.resolve_counts b msg).peaks) (s := BookState.new slots) rfl msgs
  obtain ⟨hcalls, hadded, hexecuted, hcancelled, htraded, hdeleted, -, hprobe⟩ := htallies
  dsimp only [BookState.Stats.calls] at hcalls hadded hexecuted hcancelled htraded hdeleted
  refine ⟨?_, ?_, ?_, ?_, ?_, ?_, hpeak, hprobe (Nat.two_pow_pos k)⟩ <;> omega

end Tickpipe
