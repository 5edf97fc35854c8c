import Tickpipe.BookGrammar
import Tickpipe.FileFraming
import Mathlib.Algebra.Order.Floor.Ring
import Mathlib.Algebra.Order.Floor.Semiring
import Mathlib.Algebra.Order.Field.Rat
import Mathlib.Data.Rat.Floor
import Mathlib.Tactic.Linarith
import Mathlib.Tactic.Ring
import Mathlib.Tactic.NormNum

set_option autoImplicit true

namespace Tickpipe

/-- What rate control evaluates for a message: the times gone by on the wall and in the file, the
unsigned subtractions and the divisors, and the sleep it requests, if any. -/
structure Pacing where
  elapsed : Nat
  fileElapsed : Nat
  subtractions : List (Nat × Nat)
  divisors : List Nat
  sleep : Option Nat

namespace RateControl

/-- Only a message that has a timestamp is paced. -/
def timed (msg : Body) : Bool := msg.length ≥ 11

def timestamp (msg : Body) : Nat := (readBe48 msg 5).toNat

/-- The body of the rate control, with the casts to integers as truncations. A sleep is worth a
syscall above 0.2 ms. -/
def pace (speed : ℚ) (start firstTs msgTs now : Nat) : Pacing :=
  let fileElapsed := msgTs - firstTs
  let wallElapsed := ⌊((now - start : Nat) : ℚ) * speed⌋₊
  let elapsed : Pacing := {
    elapsed := now - start
    fileElapsed := fileElapsed
    subtractions := [(msgTs, firstTs), (now, start)]
    divisors := []
    sleep := none }
  if fileElapsed > wallElapsed then
    let divisor := ⌊speed⌋₊
    let sleepNs := (fileElapsed - wallElapsed) / divisor
    { elapsed with
      subtractions := elapsed.subtractions ++ [(fileElapsed, wallElapsed)]
      divisors := [divisor]
      sleep := if sleepNs > 200000 then some sleepNs else none }
  else elapsed

/-- The pacing of the messages from the `k`-th on; `clock k` is what the clock reads there, and
`firstTs` is set once a message was paced. -/
def paceAll (speed : ℚ) (start : Nat) (clock : Nat → Nat) :
    (k : Nat) → (firstTs : Option Nat) → List Body → List Pacing
  | _, _, [] => []
  | k, firstTs, msg :: msgs =>
    if timed msg then
      let msgTs := timestamp msg
      let firstTs := firstTs.getD msgTs
      pace speed start firstTs msgTs (clock k) ::
        paceAll speed start clock (k + 1) (some firstTs) msgs
    else paceAll speed start clock (k + 1) firstTs msgs

/-- The arithmetic is well defined, and a sleep requested ends before the message is due. -/
structure Sound (speed : ℚ) (p : Pacing) : Prop where
  subtractions : ∀ x ∈ p.subtractions, x.2 ≤ x.1
  divisors : ∀ d ∈ p.divisors, d ≠ 0
  sleep : ∀ ns ∈ p.sleep, ((p.elapsed + ns : Nat) : ℚ) ≤ p.fileElapsed / speed

/-- The message is not early; or the speed is at least one, and the sleep is too short to be
requested or what the truncations lose stays within the remainder of the division. -/
def KeepsTime (speed : ℚ) (fileElapsed elapsed : Nat) : Prop :=
  let wallElapsed := ⌊(elapsed : ℚ) * speed⌋₊
  let early := fileElapsed - wallElapsed
  fileElapsed ≤ wallElapsed ∨
    1 ≤ speed ∧ (early / ⌊speed⌋₊ ≤ 200000 ∨
      Int.fract ((elapsed : ℚ) * speed) + (early / ⌊speed⌋₊ : Nat) * Int.fract speed ≤
        (early % ⌊speed⌋₊ : Nat))

theorem natFloor_add_fract {x : ℚ} (h : 0 ≤ x) : (⌊x⌋₊ : ℚ) + Int.fract x = x := by
  rw [natCast_floor_eq_intCast_floor h]
  exact Int.floor_add_fract x

theorem sleep_le_iff {speed : ℚ} (hspeed : 0 < speed) {fileElapsed elapsed : Nat}
    (hearly : ⌊(elapsed : ℚ) * speed⌋₊ ≤ fileElapsed) :
    let early := fileElapsed - ⌊(elapsed : ℚ) * speed⌋₊
    ((elapsed + early / ⌊speed⌋₊ : Nat) : ℚ) ≤ fileElapsed / speed ↔
      Int.fract ((elapsed : ℚ) * speed) + (early / ⌊speed⌋₊ : Nat) * Int.fract speed ≤
        (early % ⌊speed⌋₊ : Nat) := by
  intro early
  have hwall : (⌊(elapsed : ℚ) * speed⌋₊ : ℚ) + Int.fract ((elapsed : ℚ) * speed) =
      elapsed * speed := natFloor_add_fract (by positivity)
  have hspeed' : (⌊speed⌋₊ : ℚ) + Int.fract speed = speed := natFloor_add_fract hspeed.le
  have hfile : (fileElapsed : ℚ) = ⌊(elapsed : ℚ) * speed⌋₊ + early := by
    have hnat : fileElapsed = ⌊(elapsed : ℚ) * speed⌋₊ + early := by omega
    exact_mod_cast hnat
  have hdivision : (early : ℚ) =
      ⌊speed⌋₊ * (early / ⌊speed⌋₊ : Nat) + (early % ⌊speed⌋₊ : Nat) := by
    exact_mod_cast (Nat.div_add_mod early ⌊speed⌋₊).symm
  have hproduct : ((elapsed + early / ⌊speed⌋₊ : Nat) : ℚ) * speed =
      elapsed * speed + (early / ⌊speed⌋₊ : Nat) * ⌊speed⌋₊ +
        (early / ⌊speed⌋₊ : Nat) * Int.fract speed := by
    rw [Nat.cast_add, add_mul, add_assoc, ← mul_add, hspeed']
  rw [le_div_iff₀ hspeed, hproduct]
  constructor
  · intro h
    linarith
  · intro h
    linarith

section Pace

variable {speed : ℚ} {firstTs msgTs start now : Nat} (hts : firstTs ≤ msgTs) (hnow : start ≤ now)
include hts hnow

theorem subtractions_ordered : ∀ x ∈ [(msgTs, firstTs), (now, start)], x.2 ≤ x.1 := by
  intro x hx
  rcases List.mem_cons.1 hx with rfl | hx
  · exact hts
  · obtain rfl := List.mem_singleton.1 hx
    exact hnow

theorem sound_pace_late (hlate : ¬ msgTs - firstTs > ⌊((now - start : Nat) : ℚ) * speed⌋₊) :
    Sound speed (pace speed start firstTs msgTs now) := by
  rw [pace]
  dsimp only
  rw [if_neg hlate]
  refine ⟨subtractions_ordered hts hnow, List.forall_mem_nil _, ?_⟩
  intro ns hns
  cases hns

/-- Below one the divisor is zero; from one on the sleep that is requested has to end in time. -/
theorem sound_pace_early_iff (hspeed : 0 < speed)
    (hearly : msgTs - firstTs > ⌊((now - start : Nat) : ℚ) * speed⌋₊) :
    let early := msgTs - firstTs - ⌊((now - start : Nat) : ℚ) * speed⌋₊
    Sound speed (pace speed start firstTs msgTs now) ↔
      1 ≤ speed ∧ (early / ⌊speed⌋₊ ≤ 200000 ∨
        Int.fract (((now - start : Nat) : ℚ) * speed) +
          (early / ⌊speed⌋₊ : Nat) * Int.fract speed ≤ (early % ⌊speed⌋₊ : Nat)) := by
  intro early
  have hle := Nat.le_of_lt hearly
  have htwo := subtractions_ordered hts hnow
  rw [pace]
  dsimp only
  rw [if_pos hearly]
  constructor
  · intro h
    have hdivisor : ⌊speed⌋₊ ≠ 0 := h.divisors _ (List.mem_singleton_self _)
    refine ⟨Nat.floor_pos.1 (Nat.pos_of_ne_zero hdivisor), ?_⟩
    by_cases hshort : early / ⌊speed⌋₊ ≤ 200000
    · exact .inl hshort
    · have hsleep := h.sleep _ (if_pos (Nat.lt_of_not_le hshort))
      exact .inr ((sleep_le_iff hspeed hle).1 hsleep)
  · rintro ⟨hone, hshort⟩
    constructor
    case subtractions =>
      intro x hx
      rcases List.mem_append.1 hx with hx | hx
      · exact htwo x hx
      · obtain rfl := List.mem_singleton.1 hx
        exact hle
    case divisors =>
      intro d hd
      obtain rfl := List.mem_singleton.1 hd
      exact (Nat.floor_pos.2 hone).ne'
    case sleep =>
      intro ns hns
      dsimp only at hns
      split at hns
      · next hlong =>
        obtain rfl := Option.some.inj hns
        rcases hshort with hshort | hkeeps
        · exact absurd hlong (Nat.not_lt.2 hshort)
        · exact (sleep_le_iff hspeed hle).2 hkeeps
      · cases hns

theorem sound_pace_iff (hspeed : 0 < speed) :
    Sound speed (pace speed start firstTs msgTs now) ↔
      KeepsTime speed (msgTs - firstTs) (now - start) := by
  rw [KeepsTime]
  by_cases hearly : msgTs - firstTs > ⌊((now - start : Nat) : ℚ) * speed⌋₊
  · have hiff := sound_pace_early_iff hts hnow hspeed hearly
    constructor
    · exact fun h => .inr (hiff.1 h)
    · exact fun h => hiff.2 (h.resolve_left (Nat.not_le.2 hearly))
  · constructor
    · exact fun _ => .inl (Nat.le_of_not_gt hearly)
    · exact fun _ => sound_pace_late hts hnow hearly

end Pace

/-- The timestamp that the gaps of a file are measured from. -/
def firstTimestamp (firstTs : Option Nat) (msgs : List Body) : Nat :=
  firstTs.getD (((msgs.find? timed).map timestamp).getD 0)

theorem firstTimestamp_cons_timed (htimed : timed msg = true) :
    firstTimestamp firstTs (msg :: msgs) = firstTs.getD (timestamp msg) := by
  rw [firstTimestamp, List.find?_cons_of_pos htimed]
  rfl

theorem firstTimestamp_cons_untimed (htimed : ¬timed msg = true) :
    firstTimestamp firstTs (msg :: msgs) = firstTimestamp firstTs msgs := by
  rw [firstTimestamp, List.find?_cons_of_neg htimed, firstTimestamp]

theorem forall_indexed_cons {P : Nat → Body → Prop} :
    (∀ j m, (msg :: msgs)[j]? = some m → P j m) ↔
      P 0 msg ∧ ∀ j m, msgs[j]? = some m → P (j + 1) m := by
  constructor
  · exact fun h => ⟨h 0 msg rfl, fun j m hm => h (j + 1) m hm⟩
  · rintro ⟨hhead, htail⟩ j m hm
    cases j with
    | zero =>
      obtain rfl := Option.some.inj hm
      exact hhead
    | succ j => exact htail j m hm

/-- Every message that has a timestamp is paced by the first of them and by its own clock. -/
theorem forall_mem_paceAll {P : Pacing → Prop} (speed : ℚ) (start : Nat) (clock : Nat → Nat)
    (k : Nat) (firstTs : Option Nat) (msgs : List Body) :
    (∀ p ∈ paceAll speed start clock k firstTs msgs, P p) ↔
      ∀ j msg, msgs[j]? = some msg → timed msg = true →
        P (pace speed start (firstTimestamp firstTs msgs) (timestamp msg) (clock (k + j))) := by
  induction msgs generalizing k firstTs with
  | nil =>
    constructor
    · intro _ j msg hmsg
      cases hmsg
    · exact fun _ => List.forall_mem_nil _
  | cons msg msgs ih =>
    have hindex (j : Nat) : k + 1 + j = k + (j + 1) := by omega
    rw [paceAll, forall_indexed_cons]
    by_cases htimed : timed msg = true
    · rw [if_pos htimed, List.forall_mem_cons, ih, firstTimestamp_cons_timed htimed]
      simp only [hindex]
      exact and_congr_left fun _ => (imp_iff_right htimed).symm
    · rw [if_neg htimed, ih, firstTimestamp_cons_untimed htimed]
      simp only [hindex]
      exact ⟨fun h => ⟨fun htimed' => absurd htimed' htimed, h⟩, fun h => h.2⟩

/-- The timestamps of a file do not go back. -/
def InTime (msgs : List Body) : Prop :=
  (msgs.filter timed).Pairwise fun msg msg' => timestamp msg ≤ timestamp msg'

theorem InTime.firstTimestamp_le (h : InTime msgs) (hmem : msg ∈ msgs)
    (htimed : timed msg = true) : firstTimestamp none msgs ≤ timestamp msg := by
  have hfilter : msg ∈ msgs.filter timed := List.mem_filter.2 ⟨hmem, htimed⟩
  rw [firstTimestamp, Option.getD_none, ← List.head?_filter]
  rw [InTime] at h
  cases hf : msgs.filter timed with
  | nil =>
    rw [hf] at hfilter
    cases hfilter
  | cons first rest =>
    rw [hf] at hfilter h
    rcases List.mem_cons.1 hfilter with rfl | hrest
    · exact Nat.le_refl _
    · exact (List.pairwise_cons.1 h).1 msg hrest

theorem keepsTime_whole {n : Nat} (hn : 0 < n) (fileElapsed elapsed : Nat) :
    KeepsTime n fileElapsed elapsed := by
  have hproduct : ((elapsed : ℚ) * n) = ((elapsed * n : Nat) : ℚ) := (Nat.cast_mul _ _).symm
  have hzero : Int.fract (n : ℚ) = 0 := Int.fract_natCast n
  refine .inr ⟨by exact_mod_cast hn, .inr ?_⟩
  rw [hproduct, Int.fract_natCast, hzero, mul_zero, add_zero]
  exact Nat.cast_nonneg _

/-- A speed keeps time for all gaps of 48 bits if it is a whole number, or so high that no sleep is
ever worth a syscall; and for no other speed. -/
theorem keepsTime_always_iff {speed : ℚ} (hspeed : 0 < speed) :
    (∀ fileElapsed < 2 ^ 48, ∀ elapsed, KeepsTime speed fileElapsed elapsed) ↔
      (∃ n : Nat, speed = n) ∨ 1 ≤ speed ∧ (2 ^ 48 - 1) / ⌊speed⌋₊ ≤ 200000 := by
  have hwall : ⌊((0 : Nat) : ℚ) * speed⌋₊ = 0 := by rw [Nat.cast_zero, zero_mul, Nat.floor_zero]
  constructor
  · intro h
    have hone : 1 ≤ speed := by
      rcases h 1 (by decide) 0 with hlate | ⟨hone, -⟩
      · rw [hwall] at hlate
        exact absurd hlate (by decide)
      · exact hone
    by_cases hshort : (2 ^ 48 - 1) / ⌊speed⌋₊ ≤ 200000
    · exact .inr ⟨hone, hshort⟩
    · have hpos : 0 < ⌊speed⌋₊ := Nat.floor_pos.2 hone
      have hlong : 200001 * ⌊speed⌋₊ ≤ 2 ^ 48 - 1 :=
        (Nat.le_div_iff_mul_le hpos).1 (Nat.lt_of_not_le hshort)
      -- a gap of exactly 200001 divisors leaves no remainder to hide in
      rcases h (200001 * ⌊speed⌋₊) (by omega) 0 with hlate | ⟨-, hquotient⟩
      · rw [hwall] at hlate
        omega
      · rw [hwall, Nat.sub_zero, Nat.mul_div_cancel _ hpos, Nat.mul_mod_left, Nat.cast_zero,
          zero_mul, Int.fract_zero, zero_add] at hquotient
        rcases hquotient with hle | hfract
        · exact absurd hle (by decide)
        · have hnonneg := Int.fract_nonneg speed
          have hzero : Int.fract speed = 0 := by
            push_cast at hfract
            linarith
          have hsum := natFloor_add_fract hspeed.le
          rw [hzero, add_zero] at hsum
          exact .inl ⟨_, hsum.symm⟩
  · rintro (⟨n, rfl⟩ | ⟨hone, hshort⟩) fileElapsed hfile elapsed
    · exact keepsTime_whole (Nat.cast_pos.1 hspeed) fileElapsed elapsed
    · refine .inr ⟨hone, .inl (Nat.le_trans (Nat.div_le_div_right ?_) hshort)⟩
      omega

theorem paceAll_sound_iff {speed : ℚ} (hspeed : 0 < speed) (hmsgs : InTime msgs) {start : Nat}
    {clock : Nat → Nat} (hclock : Monotone clock) (hstart : start ≤ clock 0) :
    (∀ p ∈ paceAll speed start clock 0 none msgs, Sound speed p) ↔
      ∀ k msg, msgs[k]? = some msg → timed msg = true →
        KeepsTime speed (timestamp msg - firstTimestamp none msgs) (clock k - start) := by
  rw [forall_mem_paceAll]
  have hiff (k : Nat) (msg : Body) (hmsg : msgs[k]? = some msg) (htimed : timed msg = true) := by
    have hts := hmsgs.firstTimestamp_le (List.mem_of_getElem? hmsg) htimed
    have hnow : start ≤ clock k := Nat.le_trans hstart (hclock (Nat.zero_le k))
    exact sound_pace_iff hts hnow hspeed
  constructor
  · intro h k msg hmsg htimed
    apply (hiff k msg hmsg htimed).1
    rw [← Nat.zero_add k]
    exact h k msg hmsg htimed
  · intro h k msg hmsg htimed
    rw [Nat.zero_add]
    exact (hiff k msg hmsg htimed).2 (h k msg hmsg htimed)

theorem timestamp_lt (htimed : timed msg = true) : timestamp msg < 2 ^ 48 :=
  ItchParser.readBe48_lt msg (of_decide_eq_true htimed)

def timedDelete (ts : Nat) : Body := [68, 0, 0, 0, 0] ++ Bytes.beBytes 6 ts ++ List.replicate 8 0

theorem length_timedDelete (ts : Nat) : (timedDelete ts).length = 19 := by
  rw [timedDelete, List.length_append, List.length_append, Bytes.length_beBytes]
  rfl

theorem timed_timedDelete (ts : Nat) : timed (timedDelete ts) = true := by
  rw [timed, length_timedDelete]
  rfl

theorem timestamp_timedDelete (h : ts < 2 ^ 48) : timestamp (timedDelete ts) = ts := by
  have hread := readBe_eq 6 [68, 0, 0, 0, 0] (Bytes.beBytes 6 ts) (List.replicate 8 0)
    (Bytes.length_beBytes 6 ts)
  rw [Bytes.ofBe_beBytes 6 ts h] at hread
  refine (congrArg UInt64.toNat hread).trans ?_
  rw [UInt64.toNat_ofNat', Nat.mod_eq_of_lt (by omega)]

def apart (gap : Nat) : List UInt8 := framed [timedDelete 0, timedDelete gap]

theorem readMessages_apart (gap : Nat) :
    readMessages (apart gap) = [timedDelete 0, timedDelete gap] := by
  have hbody (ts : Nat) :
      timedDelete ts ≠ [] ∧ (timedDelete ts).length ≤ UdpServer.maxMsgSize := by
    rw [← List.length_pos_iff, length_timedDelete]
    decide
  exact readMessages_framed (List.forall_mem_cons.2
    ⟨hbody 0, List.forall_mem_singleton.2 (hbody gap)⟩)

theorem inTime_apart (gap : Nat) : InTime (readMessages (apart gap)) := by
  rw [readMessages_apart, InTime, List.filter_cons_of_pos (timed_timedDelete 0),
    List.filter_cons_of_pos (timed_timedDelete gap), List.filter_nil, List.pairwise_pair,
    timestamp_timedDelete (Nat.two_pow_pos 48)]
  exact Nat.zero_le _

theorem keepsTime_apart {speed : ℚ} (hspeed : 0 < speed) (hgap : gap < 2 ^ 48)
    (h : ∀ p ∈ paceAll speed 0 (fun _ => elapsed) 0 none (readMessages (apart gap)),
      Sound speed p) : KeepsTime speed gap elapsed := by
  have hkeeps := (paceAll_sound_iff hspeed (inTime_apart gap) monotone_const
    (Nat.zero_le _)).1 h 1 (timedDelete gap) (by rw [readMessages_apart]; rfl)
    (timed_timedDelete gap)
  rw [readMessages_apart, firstTimestamp_cons_timed (timed_timedDelete 0), Option.getD_none,
    timestamp_timedDelete (Nat.two_pow_pos 48), timestamp_timedDelete hgap, Nat.sub_zero,
    Nat.sub_zero] at hkeeps
  exact hkeeps

end RateControl

open RateControl in
/-- Replaying at a speed is well defined and never oversleeps, whatever the file and the clock,
exactly when the speed is a whole number, or so high that no sleep is ever worth a syscall. -/
theorem pacing_sound_iff (speed : ℚ) (hspeed : 0 < speed) :
    (∀ (file : List UInt8) (start : Nat) (clock : Nat → Nat), InTime (readMessages file) →
      Monotone clock → start ≤ clock 0 →
        ∀ p ∈ paceAll speed start clock 0 none (readMessages file), Sound speed p) ↔
      (∃ n : Nat, speed = n) ∨ 1 ≤ speed ∧ (2 ^ 48 - 1) / ⌊speed⌋₊ ≤ 200000 := by
  rw [← keepsTime_always_iff hspeed]
  constructor
  · intro h gap hgap elapsed
    exact keepsTime_apart hspeed hgap
      (h (apart gap) 0 (fun _ => elapsed) (inTime_apart gap) monotone_const (Nat.zero_le _))
  · intro h file start clock hfile hclock hstart
    refine (paceAll_sound_iff hspeed hfile hclock hstart).2 fun k msg _ htimed => ?_
    exact h _ (Nat.lt_of_le_of_lt (Nat.sub_le _ _) (timestamp_lt htimed)) _

open RateControl in
/-- At twice the speed a sleep of almost half a second ends when the message is due. -/
theorem doubleSpeed_sound :
    readMessages (apart 1000000000) = [timedDelete 0, timedDelete 1000000000] ∧
      (pace (2 : Nat) 0 0 1000000000 3).sleep = some 499999997 ∧
      ∀ p ∈ paceAll (2 : Nat) 0 (fun k => 3 * k) 0 none (readMessages (apart 1000000000)),
        Sound (2 : Nat) p := by
  refine ⟨readMessages_apart _, ?_, ?_⟩
  · have hwall : ⌊((3 - 0 : Nat) : ℚ) * (2 : Nat)⌋₊ = 6 := by norm_num
    have hdivisor : ⌊((2 : Nat) : ℚ)⌋₊ = 2 := Nat.floor_natCast 2
    rw [pace]
    dsimp only
    rw [hwall, hdivisor]
    rfl
  · exact (pacing_sound_iff (2 : Nat) (by norm_num)).2 (.inl ⟨2, rfl⟩) (apart 1000000000) 0
      (fun k => 3 * k) (inTime_apart _) (fun _ _ h => Nat.mul_le_mul_left 3 h) (Nat.zero_le _)

open RateControl in
/-- At half speed the sleep divides by zero, and at one and a half it takes half a second too
long. -/
theorem secondApart_fractional :
    ¬(∀ p ∈ paceAll (1 / 2) 0 (fun _ => 0) 0 none (readMessages (apart 1000000000)),
        Sound (1 / 2) p) ∧
      ¬∀ p ∈ paceAll (3 / 2) 0 (fun _ => 0) 0 none (readMessages (apart 1000000000)),
        Sound (3 / 2) p := by
  constructor
  · intro h
    rcases keepsTime_apart (by norm_num) (by decide) h with hlate | ⟨hone, -⟩
    · norm_num at hlate
    · norm_num at hone
  · intro h
    have hfloor : ⌊(3 / 2 : ℚ)⌋₊ = 1 := by norm_num [Nat.floor_eq_iff]
    have hfract : Int.fract (3 / 2 : ℚ) = 1 / 2 := by
      have hsum := natFloor_add_fract (x := 3 / 2) (by norm_num)
      rw [hfloor] at hsum
      linarith
    rcases keepsTime_apart (by norm_num) (by decide) h with hlate | ⟨-, hlong | hrest⟩
    · norm_num at hlate
    · rw [hfloor] at hlong
      norm_num at hlong
    · rw [hfloor, hfract] at hrest
      norm_num at hrest

end Tickpipe
