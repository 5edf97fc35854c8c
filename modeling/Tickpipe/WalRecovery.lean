import Tickpipe.Wal
import Tickpipe.Lib.Mealy
import Mathlib.Data.UInt

set_option autoImplicit true

namespace Tickpipe

open Mealy (EachStep after)

/-- What happens to a log: the calls on it, and crashes that leave `kept` bytes of its file. -/
inductive WalCall where
  | open (fopen : Bool)
  | append (type : WalEntryType) (order : Order) (result : MatchResult) (now : UInt64)
    (fill : Nat → UInt8) (room : Nat)
  | close
  | crash (kept : Nat)

def WalCall.isAppend : WalCall → Bool
  | .append .. => true
  | .open _ | .close | .crash _ => false

/-- The log of the running process, and its file. -/
structure LogFile where
  log : WriteAheadLog := {}
  file : List UInt8 := []

namespace LogFile

def step (s : LogFile) : WalCall → Bool × LogFile
  | .open fopen => ((s.log.open fopen s.file).1, { s with log := (s.log.open fopen s.file).2 })
  | .append type order result now fill room =>
    let r := s.log.append type order result now fill room s.file
    (r.1, ⟨r.2.1, r.2.2⟩)
  | .close => (true, { s with log := s.log.close })
  | .crash kept => (true, ⟨{}, s.file.take kept⟩)

/-- The record of an append on an open log reaches the file. -/
def Written (s : LogFile) (call : WalCall) : Prop :=
  s.log.isOpen ∧ call.isAppend → (s.step call).1 = true

/-- An append on an open log finds complete entries only. -/
def Aligned (s : LogFile) (call : WalCall) : Prop :=
  s.log.isOpen ∧ call.isAppend → WalEntry.bytes ∣ s.file.length

instance (s : LogFile) (call : WalCall) : Decidable (s.Written call) :=
  inferInstanceAs (Decidable (_ → _))

instance (s : LogFile) (call : WalCall) : Decidable (s.Aligned call) :=
  inferInstanceAs (Decidable (_ → _))

end LogFile

/-- What a log is for: the entries that are safe, in order, numbered from one on. -/
structure Journal where
  isOpen : Bool := false
  entries : List WalEntry := []

namespace Journal

/-- A crash loses the entries that do not lie within the bytes kept. -/
def step (j : Journal) : WalCall → Unit × Journal
  | .open fopen => ((), { j with isOpen := fopen })
  | .append type order result now _ _ =>
    ((), if j.isOpen then
      { j with entries :=
          j.entries ++ [⟨UInt64.ofNat (j.entries.length + 1), now, type, order, result⟩] }
      else j)
  | .close => ((), { j with isOpen := false })
  | .crash kept => ((), ⟨false, j.entries.take (kept / WalEntry.bytes)⟩)

end Journal

/-- The file holds the entries of the journal, and the log goes on where they end. -/
structure Recovers (s : LogFile) (j : Journal) : Prop where
  isOpen : s.log.isOpen = j.isOpen
  entries : (Blocks.blocks WalEntry.bytes s.file).map WalEntry.layout.value = j.entries.map some
  sequence : s.log.isOpen = true → s.log.sequence = UInt64.ofNat j.entries.length
  numbered : j.entries.map (·.sequence.toNat) = List.range' 1 j.entries.length
  length_lt : s.file.length < 2 ^ 63

namespace Recovers

variable {s : LogFile} {j : Journal}

theorem bytes_pos : 0 < WalEntry.bytes := by decide

theorem length_entries (h : Recovers s j) : j.entries.length = s.file.length / WalEntry.bytes := by
  have hlen := congrArg List.length h.entries
  rw [List.length_map, List.length_map, Blocks.length_blocks bytes_pos] at hlen
  exact hlen.symm

theorem new : Recovers {} {} where
  isOpen := rfl
  entries := rfl
  sequence h := by cases h
  numbered := rfl
  length_lt := by decide

theorem «open» (h : Recovers s j) (fopen : Bool) :
    Recovers (s.step (.open fopen)).2 (j.step (.open fopen)).2 := by
  cases fopen with
  | false => exact ⟨rfl, h.entries, fun ho => (by cases ho), h.numbered, h.length_lt⟩
  | true =>
    exact ⟨rfl, h.entries, fun _ => congrArg UInt64.ofNat h.length_entries.symm, h.numbered,
      h.length_lt⟩

theorem append (h : Recovers s j) (type : WalEntryType) (order : Order) (result : MatchResult)
    (now : UInt64) (fill : Nat → UInt8) (room : Nat)
    (hw : s.Written (.append type order result now fill room))
    (ha : s.Aligned (.append type order result now fill room)) :
    Recovers (s.step (.append type order result now fill room)).2
      (j.step (.append type order result now fill room)).2 := by
  cases ho : s.log.isOpen with
  | false =>
    have hs : (s.step (.append type order result now fill room)).2 = s := by
      rw [LogFile.step, WriteAheadLog.append_closed ho]
    have hj : (j.step (.append type order result now fill room)).2 = j := by
      rw [Journal.step, if_neg (by rw [← h.isOpen, ho]; exact Bool.false_ne_true)]
    rw [hs, hj]
    exact h
  | true =>
    obtain ⟨happend, hroom⟩ := WriteAheadLog.append_true ho (hw ⟨ho, rfl⟩)
    have hsequence : s.log.sequence + 1 = UInt64.ofNat (j.entries.length + 1) := by
      rw [h.sequence ho, UInt64.ofNat_add]
      rfl
    have hcount : (UInt64.ofNat (j.entries.length + 1)).toNat = 1 + j.entries.length := by
      have hdiv := Nat.div_le_self s.file.length WalEntry.bytes
      have hlt := h.length_lt
      rw [h.length_entries, UInt64.toNat_ofNat', Nat.mod_eq_of_lt, Nat.add_comm]
      omega
    rw [LogFile.step, happend, Journal.step, if_pos (h.isOpen ▸ ho), ← hsequence]
    exact {
      isOpen := h.isOpen
      entries := by
        rw [Blocks.blocks_append bytes_pos (ha ⟨ho, rfl⟩) (WalEntry.layout.length_image _ _),
          List.map_append, List.map_append, h.entries, List.map_singleton, List.map_singleton,
          WalEntry.layout.value_image]
      sequence := fun _ => by rw [List.length_append, hsequence]; rfl
      numbered := by
        rw [List.map_append, h.numbered, List.length_append, List.length_singleton,
          List.range'_1_concat, List.map_singleton, hsequence, hcount]
      length_lt := by
        rw [List.length_append, WalEntry.layout.length_image]
        exact hroom }

theorem close (h : Recovers s j) : Recovers (s.step .close).2 (j.step .close).2 :=
  ⟨rfl, h.entries, fun ho => (by cases ho), h.numbered, h.length_lt⟩

theorem crash (h : Recovers s j) (kept : Nat) :
    Recovers (s.step (.crash kept)).2 (j.step (.crash kept)).2 where
  isOpen := rfl
  entries := by
    rw [LogFile.step, Journal.step, Blocks.blocks_take bytes_pos, List.map_take, h.entries,
      List.map_take]
  sequence ho := by cases ho
  numbered := by
    rw [Journal.step, List.map_take, h.numbered, List.length_take]
    by_cases hk : kept / WalEntry.bytes ≤ j.entries.length
    · rw [Nat.min_eq_left hk, List.take_range'_of_length_ge hk]
    · have hle := Nat.le_of_lt (Nat.lt_of_not_le hk)
      rw [Nat.min_eq_right hle, List.take_range'_of_length_le hle]
  length_lt := by
    rw [LogFile.step, List.length_take]
    exact Nat.lt_of_le_of_lt (Nat.min_le_right _ _) h.length_lt

theorem step (h : Recovers s j) (hw : s.Written call) (ha : s.Aligned call) :
    Recovers (s.step call).2 (j.step call).2 := by
  cases call with
  | «open» fopen => exact h.open fopen
  | append type order result now fill room => exact h.append type order result now fill room hw ha
  | close => exact h.close
  | crash kept => exact h.crash kept

theorem run (h : Recovers s j) (hw : EachStep LogFile.Written LogFile.step s calls)
    (ha : EachStep LogFile.Aligned LogFile.step s calls) :
    Recovers (after LogFile.step s calls) (after Journal.step j calls) := by
  induction calls generalizing s j with
  | nil => exact h
  | cons call calls ih => exact ih (h.step hw.1 ha.1) hw.2 ha.2

theorem replay (h : Recovers s j) :
    WriteAheadLog.replay true s.file = (j.entries.map some, decide (0 < j.entries.length)) := by
  rw [WriteAheadLog.replay, if_pos rfl, h.entries]
  dsimp only
  rw [List.length_map]

theorem increasing (h : Recovers s j) : j.entries.Pairwise (·.sequence < ·.sequence) := by
  have hlt : (j.entries.map (·.sequence.toNat)).Pairwise (· < ·) := by
    rw [h.numbered]
    exact List.pairwise_lt_range'
  rw [List.pairwise_map] at hlt
  exact hlt

end Recovers

/-- Where every append finds complete entries only, a replay yields the entries that survived,
with their numbers ascending. -/
theorem replay_recovers (calls : List WalCall)
    (hw : EachStep LogFile.Written LogFile.step {} calls)
    (ha : EachStep LogFile.Aligned LogFile.step {} calls) :
    let j := after Journal.step {} calls
    WriteAheadLog.replay true (after LogFile.step {} calls).file =
      (j.entries.map some, decide (0 < j.entries.length)) ∧
      j.entries.Pairwise (·.sequence < ·.sequence) := by
  have h := Recovers.new.run hw ha
  exact ⟨h.replay, h.increasing⟩

def submit (ref : UInt64) : WalCall :=
  .append .orderSubmitted { orderRef := ref } {} 0 (fun _ => 0) WalEntry.bytes

/-- An entry, the crash that tears it, and the next entry. -/
def tornTail (kept : Nat) : List WalCall :=
  [.open true, submit 1, .crash kept, .open true, submit 2]

/-- The entry behind a torn one is lost: its bytes are read as the rest of the torn one. -/
theorem tornTail_misread :
    EachStep LogFile.Written LogFile.step {} (tornTail 100) ∧
      (after Journal.step {} (tornTail 100)).entries =
        [⟨1, 0, .orderSubmitted, { orderRef := 2 }, {}⟩] ∧
      WriteAheadLog.replay true (after LogFile.step {} (tornTail 100)).file =
        ([some ⟨1, 0, .orderSubmitted,
          { orderRef := 1, price := 1, stock := #v[0, 0, 0, 0, 0, 0, 0, 1] }, {}⟩], true) := by
  decide +kernel

/-- The second of two entries is torn, the torn part cut away, and another entry put behind. -/
def tornTwice : List WalCall :=
  [.open true, submit 1, submit 2, .crash 300, .open true, .crash 192, .open true, submit 3]

theorem tornTwice_recovered :
    WriteAheadLog.replay true (after LogFile.step {} (tornTwice.take 5)).file =
        ([some ⟨1, 0, .orderSubmitted, { orderRef := 1 }, {}⟩], true) ∧
      WriteAheadLog.replay true (after LogFile.step {} tornTwice).file =
        ([some ⟨1, 0, .orderSubmitted, { orderRef := 1 }, {}⟩,
          some ⟨2, 0, .orderSubmitted, { orderRef := 3 }, {}⟩], true) :=
  ⟨(replay_recovers (tornTwice.take 5) (by decide +kernel) (by decide +kernel)).1,
    (replay_recovers tornTwice (by decide +kernel) (by decide +kernel)).1⟩

end Tickpipe
