import Mathlib.Data.List.Nodup

set_option autoImplicit true

namespace Tickpipe.Pairwise

variable {R : α → α → Prop}

/-- In a list a symmetric relation holds between any two places iff no element that is not related
to itself stands in it twice and any two distinct elements are related. -/
theorem pairwise_iff_nodup_filter [DecidablePred fun a => R a a] (hs : ∀ a b, R a b → R b a)
    (l : List α) :
    l.Pairwise R ↔
      (l.filter fun a => ¬ R a a).Nodup ∧ ∀ a ∈ l, ∀ b ∈ l, a ≠ b → R a b := by
  induction l with
  | nil => simp
  | cons a l ih =>
    rw [List.pairwise_cons, ih]
    constructor
    · intro ⟨ha, hnodup, hl⟩
      constructor
      · rw [List.filter_cons]
        split
        case isTrue hn =>
          have hn : ¬ R a a := of_decide_eq_true hn
          refine List.nodup_cons.2 ⟨fun hmem => hn ?_, hnodup⟩
          exact ha a (List.mem_filter.1 hmem).1
        case isFalse => exact hnodup
      · intro b hb c hc hne
        rcases List.mem_cons.1 hb with hba | hbl
        · subst hba
          exact ha c ((List.mem_cons.1 hc).resolve_left (Ne.symm hne))
        · rcases List.mem_cons.1 hc with hca | hcl
          · subst hca
            exact hs _ _ (ha b hbl)
          · exact hl b hbl c hcl hne
    · intro ⟨hnodup, hl⟩
      refine ⟨?_, ?_, ?_⟩
      · intro b hb
        by_cases he : a = b
        · subst he
          by_contra hn
          rw [List.filter_cons, if_pos (decide_eq_true hn)] at hnodup
          exact (List.nodup_cons.1 hnodup).1 (List.mem_filter.2 ⟨hb, decide_eq_true hn⟩)
        · exact hl a List.mem_cons_self b (List.mem_cons_of_mem _ hb) he
      · exact hnodup.sublist ((List.sublist_cons_self a l).filter _)
      · intro b hb c hc hne
        exact hl b (List.mem_cons_of_mem _ hb) c (List.mem_cons_of_mem _ hc) hne

theorem rel_or_rel (h : List.Pairwise R l) (ha : a ∈ l) (hb : b ∈ l) (hne : a ≠ b) :
    R a b ∨ R b a := by
  induction h with
  | nil => cases ha
  | cons hfirst _ ih =>
    rcases List.mem_cons.1 ha with hac | hal
    · subst hac
      exact Or.inl (hfirst b ((List.mem_cons.1 hb).resolve_left (Ne.symm hne)))
    · rcases List.mem_cons.1 hb with hbc | hbl
      · subst hbc
        exact Or.inr (hfirst a hal)
      · exact ih hal hbl

end Tickpipe.Pairwise
