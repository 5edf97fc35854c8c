import Tickpipe.FeedSafety
import Tickpipe.FileFraming

set_option autoImplicit true

namespace Tickpipe

namespace ItchReplay

/-- Every message is counted once, and so is every one that the parser refused. -/
structure Balanced (s : ItchReplay) : Prop where
  total : s.messagesTotal =
    s.directoryMessages + s.messagesFiltered + s.messagesParsed + s.messagesSkipped
  skipped : s.messagesSkipped = s.counts.ignored + s.counts.malformed + s.counts.unknown

theorem outcome_parsed (h : outcome d? c msg = .parsed result) :
    result = ItchParser.parse c msg := by
  rw [outcome.eq_def] at h
  cases d? with
  | none => exact (Outcome.parsed.inj h).symm
  | some d =>
    dsimp only at h
    split at h
    · cases h
    · split at h
      · cases h
      · exact (Outcome.parsed.inj h).symm

variable {s : ItchReplay}

theorem messagesTotal_handle (s : ItchReplay) (msg : Body) :
    (s.handle msg).messagesTotal = s.messagesTotal + 1 := by
  rw [← settle_outcome]
  cases outcome s.directory s.counts msg with
  | learnt d => rfl
  | filtered => rfl
  | parsed result =>
    obtain ⟨order, counts⟩ := result
    cases order with
    | none => rfl
    | some order => rfl

theorem bytesRead_handle (s : ItchReplay) (msg : Body) :
    (s.handle msg).bytesRead = s.bytesRead + (2 + msg.length) := by
  rw [← settle_outcome]
  cases outcome s.directory s.counts msg with
  | learnt d => rfl
  | filtered => rfl
  | parsed result =>
    obtain ⟨order, counts⟩ := result
    cases order with
    | none => rfl
    | some order => rfl

theorem Balanced.handle (h : s.Balanced) (msg : Body) : (s.handle msg).Balanced := by
  obtain ⟨htotal, hskipped⟩ := h
  rw [← settle_outcome]
  cases ho : outcome s.directory s.counts msg with
  | learnt d =>
    refine ⟨?_, hskipped⟩
    simp only [settle, htotal]
    omega
  | filtered =>
    refine ⟨?_, hskipped⟩
    simp only [settle, htotal]
    omega
  | parsed result =>
    rw [outcome_parsed ho]
    rcases ItchParser.parse_cases s.counts msg with ⟨out, hp⟩ | hp | hp | hp
    · rw [hp]
      refine ⟨?_, hskipped⟩
      simp only [settle, htotal]
      omega
    all_goals
      rw [hp]
      constructor
      · simp only [settle, htotal]
        omega
      · simp only [settle, hskipped]
        omega

theorem foldl_handle_balanced (h : s.Balanced) (msgs : List Body) :
    (msgs.foldl ItchReplay.handle s).Balanced := by
  induction msgs generalizing s with
  | nil => exact h
  | cons msg msgs ih => exact ih (h.handle msg)

theorem messagesTotal_foldl (msgs : List Body) (s : ItchReplay) :
    (msgs.foldl ItchReplay.handle s).messagesTotal = s.messagesTotal + msgs.length := by
  induction msgs generalizing s with
  | nil => rfl
  | cons msg msgs ih =>
    rw [List.foldl_cons, ih, messagesTotal_handle, List.length_cons]
    omega

/-- A message with its length before it, as the file holds it. -/
def framed (msg : Body) : List UInt8 := Bytes.beBytes 2 msg.length ++ msg

theorem bytesRead_foldl (msgs : List Body) (s : ItchReplay) :
    (msgs.foldl ItchReplay.handle s).bytesRead =
      s.bytesRead + (msgs.flatMap framed).length := by
  induction msgs generalizing s with
  | nil => rfl
  | cons msg msgs ih =>
    rw [List.foldl_cons, ih, bytesRead_handle, List.flatMap_cons, List.length_append, framed,
      List.length_append, Bytes.length_beBytes, Nat.add_assoc]

/-- The message that a file begins with stands there behind its length. -/
theorem nextMessage_framed (h : nextMessage file = some (msg, rest)) :
    file = framed msg ++ rest := by
  rw [nextMessage] at h
  split at h
  case isTrue hlen =>
    obtain ⟨rfl, rfl⟩ := Prod.mk.inj (Option.some.inj h)
    obtain ⟨l, r, hfile, hl⟩ := holds_readBe16 (i := 0) hlen.1
    have htake : ((file.drop 2).take (readBe16 file 0).toNat).length = (readBe16 file 0).toNat := by
      rw [List.length_take, List.length_drop]
      omega
    obtain rfl := List.length_eq_zero_iff.1 hl
    have htwo := congrArg (List.take 2) hfile
    rw [List.nil_append, List.take_left' (Bytes.length_beBytes ..)] at htwo
    rw [framed, htake, ← htwo, List.append_assoc, ← List.drop_drop, List.take_append_drop,
      List.take_append_drop]
  case isFalse => cases h

/-- The messages of a file are what it begins with. -/
theorem messages_flatMap (n : Nat) (file : List UInt8) :
    ∃ rest, file = ((messages file).take n).flatMap framed ++ rest := by
  induction n generalizing file with
  | zero => exact ⟨file, rfl⟩
  | succ n ih =>
    rw [messages_eq]
    cases hm : nextMessage file with
    | none => exact ⟨file, rfl⟩
    | some x =>
      obtain ⟨msg, tail⟩ := x
      obtain ⟨rest, hrest⟩ := ih tail
      refine ⟨rest, ?_⟩
      dsimp only
      rw [List.take_succ_cons, List.flatMap_cons, List.append_assoc, ← hrest]
      exact nextMessage_framed hm

theorem handleUntil_take (maxMessages : Nat) (msgs : List Body) (s : ItchReplay) :
    ∃ n ≤ msgs.length,
      handleUntil maxMessages msgs s = (msgs.take n).foldl ItchReplay.handle s := by
  induction msgs generalizing s with
  | nil => exact ⟨0, Nat.le_refl 0, rfl⟩
  | cons msg msgs ih =>
    rw [handleUntil]
    split
    · exact ⟨1, Nat.le_add_left 1 _, rfl⟩
    · obtain ⟨n, hn, heq⟩ := ih (s.handle msg)
      exact ⟨n + 1, Nat.succ_le_succ hn, heq⟩

def learned (directory : Option SymbolDirectory) (msgs : List Body) : Option SymbolDirectory :=
  msgs.foldl (fun d? msg => d?.map fun d => (d.feed msg).getD d) directory

theorem directory_handle (s : ItchReplay) (msg : Body) :
    (s.handle msg).directory = s.directory.map fun d => (d.feed msg).getD d := by
  obtain ⟨directory, counts, _, _, _, _, _, _, _⟩ := s
  rw [ItchReplay.handle]
  cases directory with
  | none =>
    dsimp only
    cases (ItchParser.parse counts msg).1 with
    | none => rfl
    | some order => rfl
  | some d =>
    dsimp only
    rw [Option.map_some]
    cases d.feed msg with
    | some d' => rfl
    | none =>
      dsimp only
      split
      · rfl
      · cases (ItchParser.parse counts msg).1 with
        | none => rfl
        | some order => rfl

theorem directory_foldl (msgs : List Body) (s : ItchReplay) :
    (msgs.foldl ItchReplay.handle s).directory = learned s.directory msgs := by
  induction msgs generalizing s with
  | nil => rfl
  | cons msg msgs ih =>
    rw [List.foldl_cons, ih, directory_handle, learned, learned, List.foldl_cons]

theorem reachesParser_congr {s' : ItchReplay} (h : s'.directory = s.directory) (msg : Body) :
    s'.reachesParser msg = s.reachesParser msg := by
  rw [reachesParser, reachesParser, h]

theorem messagesTotal_handleUntil_le (maxMessages : Nat) (msgs : List Body) (s : ItchReplay) :
    s.messagesTotal ≤ (handleUntil maxMessages msgs s).messagesTotal := by
  obtain ⟨n, -, heq⟩ := handleUntil_take maxMessages msgs s
  rw [heq, messagesTotal_foldl]
  exact Nat.le_add_right _ _

theorem messagesTotal_lt_handleUntil (maxMessages : Nat) (msg : Body) (msgs : List Body)
    (s : ItchReplay) :
    s.messagesTotal < (handleUntil maxMessages (msg :: msgs) s).messagesTotal := by
  have htotal := messagesTotal_handle s msg
  have hrest := messagesTotal_handleUntil_le maxMessages msgs (s.handle msg)
  rw [handleUntil]
  split
  · omega
  · omega

/-- A limit that is still `k + 1` messages away is kept if no more follow, or if the message
that meets it goes to the parser. -/
theorem handleUntil_limit (hmax : s.messagesTotal + k + 1 = maxMessages) (msgs : List Body) :
    (handleUntil maxMessages msgs s).messagesTotal ≤ maxMessages ↔
      msgs.length ≤ k + 1 ∨ ∃ msg ∈ msgs[k]?,
        ((msgs.take k).foldl ItchReplay.handle s).reachesParser msg = true := by
  induction msgs generalizing s k with
  | nil =>
    constructor
    · exact fun _ => .inl (Nat.zero_le _)
    · intro _
      rw [handleUntil]
      omega
  | cons msg msgs ih =>
    have htotal := messagesTotal_handle s msg
    rw [handleUntil]
    cases k with
    | zero =>
      by_cases hreach : s.reachesParser msg = true
      · rw [if_pos ⟨by omega, hreach, by omega⟩]
        constructor
        · exact fun _ => .inr ⟨msg, rfl, hreach⟩
        · intro _
          omega
      · rw [if_neg (fun h => hreach h.2.1)]
        constructor
        · intro hle
          cases msgs with
          | nil => exact .inl (Nat.le_refl 1)
          | cons msg' msgs =>
            have hlt := messagesTotal_lt_handleUntil maxMessages msg' msgs (s.handle msg)
            omega
        · rintro (hlen | ⟨msg', hmsg', hreach'⟩)
          · obtain rfl := List.length_eq_zero_iff.1 (Nat.le_zero.1 (Nat.le_of_succ_le_succ hlen))
            rw [handleUntil]
            omega
          · obtain rfl := Option.some.inj hmsg'
            exact absurd hreach' hreach
    | succ k =>
      rw [if_neg (by omega), ih (s := s.handle msg) (k := k) (by omega), List.length_cons,
        List.getElem?_cons_succ, List.take_succ_cons, List.foldl_cons, Nat.add_le_add_iff_right]

/-- What the statistics of a replay are to say of a file. -/
structure Reckons (maxMessages : Nat) (file : List UInt8) (s : ItchReplay) : Prop where
  balanced : s.Balanced
  counted : s.messagesTotal ≤ (messages file).length
  consumed : ∃ rest, file = ((messages file).take s.messagesTotal).flatMap framed ++ rest
  bytes : s.bytesRead = (((messages file).take s.messagesTotal).flatMap framed).length
  limit : maxMessages ≠ 0 → s.messagesTotal ≤ maxMessages

/-- The message that meets the limit goes to the parser, behind which the limit is tested. -/
def LimitTested (directory : Option SymbolDirectory) (maxMessages : Nat) (file : List UInt8) :
    Prop :=
  ∃ msg ∈ (messages file)[maxMessages - 1]?,
    ItchReplay.reachesParser
      { directory := learned directory ((messages file).take (maxMessages - 1)) } msg = true

theorem replayAll_limit_iff (directory : Option SymbolDirectory) (hmax : maxMessages ≠ 0)
    (file : List UInt8) :
    (replayAll maxMessages file { directory := directory }).messagesTotal ≤ maxMessages ↔
      (messages file).length ≤ maxMessages ∨ LimitTested directory maxMessages file := by
  obtain ⟨k, rfl⟩ := Nat.exists_eq_succ_of_ne_zero hmax
  have hreach (msgs : List Body) (msg : Body) :
      (msgs.foldl ItchReplay.handle { directory := directory }).reachesParser msg =
        ItchReplay.reachesParser { directory := learned directory msgs } msg :=
    reachesParser_congr (directory_foldl msgs { directory := directory }) msg
  rw [replayAll_limited, handleUntil_limit (congrArg Nat.succ (Nat.zero_add k)), LimitTested,
    Nat.succ_sub_one]
  simp only [hreach]

end ItchReplay

/-- A replay accounts for every message, and keeps its limit unless a message that the directory
takes or drops stands where the limit is met and another follows it. -/
theorem replay_reckons_iff (directory : Option SymbolDirectory) (maxMessages : Nat)
    (file : List UInt8) :
    (ItchReplay.replayAll maxMessages file { directory := directory }).Reckons maxMessages file ↔
      maxMessages = 0 ∨ (messages file).length ≤ maxMessages ∨
        ItchReplay.LimitTested directory maxMessages file := by
  constructor
  · intro h
    by_cases hmax : maxMessages = 0
    · exact .inl hmax
    · exact .inr ((ItchReplay.replayAll_limit_iff directory hmax file).1 (h.limit hmax))
  · intro h
    obtain ⟨n, hn, heq⟩ := ItchReplay.handleUntil_take maxMessages (messages file)
      { directory := directory }
    rw [← replayAll_limited] at heq
    have htotal : (ItchReplay.replayAll maxMessages file
        { directory := directory }).messagesTotal = n := by
      rw [heq, ItchReplay.messagesTotal_foldl, List.length_take_of_le hn]
      exact Nat.zero_add n
    constructor
    case balanced =>
      rw [heq]
      exact ItchReplay.foldl_handle_balanced ⟨rfl, rfl⟩ _
    case counted => exact htotal ▸ hn
    case consumed => exact ItchReplay.messages_flatMap _ file
    case bytes =>
      rw [htotal, heq, ItchReplay.bytesRead_foldl]
      exact Nat.zero_add _
    case limit =>
      intro hmax
      apply (ItchReplay.replayAll_limit_iff directory hmax file).2
      rcases h with hzero | hmeets
      · exact absurd hzero hmax
      · exact hmeets

def twoDeletes : List UInt8 :=
  ItchReplay.framed ([68] ++ List.replicate 18 0) ++
    ItchReplay.framed ([68] ++ List.replicate 18 0)

/-- Both are filtered, and a limit of one is not kept. -/
theorem twoDeletes_overrun :
    (ItchReplay.replayAll 1 twoDeletes
      { directory := some SymbolDirectory.new }).messagesTotal = 2 ∧
      ¬(ItchReplay.replayAll 1 twoDeletes { directory := some SymbolDirectory.new }).Reckons 1
        twoDeletes := by
  have htotal : (ItchReplay.replayAll 1 twoDeletes
      { directory := some SymbolDirectory.new }).messagesTotal = 2 := by
    decide +kernel
  refine ⟨htotal, ?_⟩
  intro h
  have hle := h.limit (by decide)
  rw [htotal] at hle
  exact absurd hle (by decide)

end Tickpipe
