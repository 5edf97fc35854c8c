import Tickpipe.Lib.OrdMap
import Mathlib.Order.RelIso.Basic

set_option autoImplicit true

namespace OrdMap

variable {κ : Type u} {μ : Type w} {ν : Type v} {lt : κ → κ → Prop} {lt' : μ → μ → Prop}

/-- An entry under another name. -/
def renamed (g : lt ≃r lt') (e : κ × ν) : μ × ν := (g e.1, e.2)

/-- The map under names that stand in the same order. -/
def rekey (g : lt ≃r lt') (m : OrdMap κ lt ν) : OrdMap μ lt' ν where
  entries := m.entries.map (renamed g)
  sorted := List.pairwise_map.2 (m.sorted.imp fun h => g.map_rel_iff.2 h)

theorem first?_rekey (g : lt ≃r lt') (m : OrdMap κ lt ν) :
    (m.rekey g).first? = m.first?.map (renamed g) :=
  List.head?_map

variable [DecidableEq κ] [DecidableEq μ]

theorem find_renamed (g : lt ≃r lt') (k : κ) (l : List (κ × ν)) :
    find (g k) (l.map (renamed g)) = find k l := by
  induction l with
  | nil => rfl
  | cons e l ih =>
    rw [List.map_cons, find, find, ih, renamed]
    exact if_congr g.injective.eq_iff rfl rfl

theorem put_renamed [DecidableRel lt] [DecidableRel lt'] (g : lt ≃r lt') (k : κ) (v : ν)
    (l : List (κ × ν)) :
    put lt' (g k) v (l.map (renamed g)) = (put lt k v l).map (renamed g) := by
  induction l with
  | nil => rfl
  | cons e l ih =>
    rw [List.map_cons, put, put, ih, renamed]
    dsimp only
    rw [if_congr g.injective.eq_iff rfl (if_congr g.map_rel_iff rfl rfl)]
    split
    · rfl
    · split
      · rfl
      · rfl

theorem drop_renamed (g : lt ≃r lt') (k : κ) (l : List (κ × ν)) :
    drop (g k) (l.map (renamed g)) = (drop k l).map (renamed g) := by
  induction l with
  | nil => rfl
  | cons e l ih =>
    rw [List.map_cons, drop, drop, ih, renamed]
    dsimp only
    rw [if_congr g.injective.eq_iff rfl rfl]
    split
    · rfl
    · rfl

theorem get?_rekey (g : lt ≃r lt') (m : OrdMap κ lt ν) (k : κ) :
    (m.rekey g).get? (g k) = m.get? k :=
  find_renamed g k m.entries

theorem insert_rekey [DecidableRel lt] [DecidableRel lt'] [IsStrictTotalOrder κ lt]
    [IsStrictTotalOrder μ lt'] (g : lt ≃r lt') (m : OrdMap κ lt ν) (k : κ) (v : ν) :
    (m.rekey g).insert (g k) v = (m.insert k v).rekey g := by
  have hentries := put_renamed g k v m.entries
  simp only [insert, rekey, hentries]

theorem erase_rekey (g : lt ≃r lt') (m : OrdMap κ lt ν) (k : κ) :
    (m.rekey g).erase (g k) = (m.erase k).rekey g := by
  have hentries := drop_renamed g k m.entries
  simp only [erase, rekey, hentries]

end OrdMap
