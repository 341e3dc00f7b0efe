import Hedronetes.Patch.Strategic

/-!
# The price of a merge

Each part of a strategic merge pays a price that its values fix, so that the budget decides only
whether the merge goes through.
-/

namespace Hedronetes.Strategic

open Effects Budgets Apply Server

variable {schemas schema original : Json} {merge : Json → Json → Json → Spending Json}
  {fresh : Json → Spending (Option Json)}

theorem priced_spend (amount : ℕ) : Priced (spend amount) := Priced.spend

theorem priced_reorder (key : Option String) (values order old : List Json) :
    Priced (reorder key values order old) := by
  unfold reorder
  apply Priced.bind (priced_spend _)
  intro _
  apply Priced.bind (Priced.ofExcept _)
  intro _
  exact Priced.pure _

theorem priced_fresh (levels : ℕ) (value : Json) : Priced (Strategic.fresh levels value) := by
  induction levels generalizing value with
  | zero =>
    apply Priced.bind (priced_spend 1)
    intro _
    exact Priced.throw _
  | succ levels ih =>
    apply Priced.bind (priced_spend 1)
    intro _
    split
    · split_ifs
      · exact Priced.pure _
      · apply Priced.bind
        · apply Priced.foldlM
          intro result e _
          unfold freshField
          split_ifs
          · exact Priced.pure _
          · apply Priced.bind (ih e.2)
            rintro (_ | v)
            · exact Priced.pure _
            · exact Priced.pure _
        · intro _
          exact Priced.pure _
    · apply Priced.bind
      · apply Priced.foldlM
        intro result item _
        apply Priced.bind (ih item)
        rintro (_ | v)
        · exact Priced.pure _
        · exact Priced.pure _
      · intro _
        exact Priced.pure _
    · exact Priced.pure _

theorem priced_mergeItem (hmerge : ∀ old v schema, Priced (merge old v schema))
    (key : Option String) (result : List Json) (item : Json) :
    Priced (mergeItem merge key schema result item) := by
  apply Priced.bind (Priced.ofExcept _)
  intro id
  split
  · split_ifs
    · apply Priced.bind (hmerge _ _ _)
      intro _
      exact Priced.pure _
    · exact Priced.pure _
  · exact Priced.pure _

theorem priced_list (hmerge : ∀ old v schema, Priced (merge old v schema)) (old patch : List Json) :
    Priced (list schemas merge old patch schema) := by
  apply Priced.bind (priced_spend _)
  intro _
  apply Priced.bind (Priced.ofExcept _)
  intro _
  apply Priced.bind (Priced.ofExcept _)
  intro reading
  by_cases hreplace : reading.replace = true
  · rw [if_pos hreplace]
    exact Priced.pure _
  · rw [if_neg hreplace]
    apply Priced.bind
    · apply Priced.foldlM
      intro result item _
      exact priced_mergeItem hmerge _ result item
    intro result
    split_ifs
    · apply Priced.bind (priced_reorder _ _ _ _)
      intro _
      exact Priced.pure _
    · apply Priced.bind (priced_spend _)
      intro _
      apply Priced.bind (priced_reorder _ _ _ _)
      intro _
      exact Priced.pure _

theorem priced_retainKeys (patch result : Fields) : Priced (retainKeys patch result) := by
  unfold retainKeys
  split
  · exact Priced.pure _
  · apply Priced.bind (Priced.ofExcept _)
    intro retain
    apply Priced.bind (priced_spend _)
    intro _
    apply Priced.bind (Priced.ofExcept _)
    intro _
    exact Priced.pure _

theorem priced_mergeField (hmerge : ∀ old v schema, Priced (merge old v schema))
    (hfresh : ∀ v, Priced (fresh v)) (result : Fields) (e : String × Json) :
    Priced (mergeField schemas merge fresh schema result e) := by
  unfold mergeField
  split_ifs
  · exact Priced.pure _
  · dsimp only
    split_ifs
    · apply Priced.bind (hfresh e.2)
      rintro (_ | v)
      · exact Priced.pure _
      · exact Priced.pure _
    · apply Priced.bind (hmerge _ _ _)
      intro _
      exact Priced.pure _

theorem priced_deleteFromList (result : Fields) (e : String × Json) :
    Priced (deleteFromList schemas schema result e) := by
  unfold deleteFromList
  by_cases hretain : e.1 = "$retainKeys"
  · rw [if_pos hretain]
    exact Priced.pure _
  · rw [if_neg hretain]
    split
    · apply Priced.bind (Priced.ofExcept _)
      intro _
      apply Priced.bind (Priced.ofExcept _)
      intro removals
      apply Priced.bind (Priced.ofExcept _)
      intro _
      split
      · exact Priced.pure _
      · apply Priced.bind (Priced.ofExcept _)
        intro old
        apply Priced.bind (priced_spend _)
        intro _
        exact Priced.pure _
    · split_ifs
      · exact Priced.pure _
      · exact Priced.throw _

theorem priced_followed (key : Option String) (patch : Fields) (name : String)
    (order : List Json) : Priced (followed key patch name order) := by
  unfold followed
  split
  · exact Priced.pure _
  · apply Priced.bind (Priced.ofExcept _)
    intro values
    apply Priced.bind (priced_spend _)
    intro _
    apply Priced.bind (Priced.ofExcept _)
    intro _
    exact Priced.pure _

theorem priced_orderList (patch result : Fields) (e : String × Json) :
    Priced (orderList schemas original patch schema result e) := by
  unfold orderList
  split
  · exact Priced.pure _
  · apply Priced.bind (Priced.ofExcept _)
    intro _
    apply Priced.bind (Priced.ofExcept _)
    intro order
    apply Priced.bind (Priced.ofExcept _)
    intro _
    apply Priced.bind (priced_followed _ _ _ _)
    intro _
    split
    · exact Priced.pure _
    · apply Priced.bind (Priced.ofExcept _)
      intro values
      apply Priced.bind (priced_reorder _ _ _ _)
      intro _
      exact Priced.pure _

theorem priced_map (hmerge : ∀ old v schema, Priced (merge old v schema))
    (hfresh : ∀ v, Priced (fresh v)) (patch : Fields) :
    Priced (map schemas merge fresh original patch schema) := by
  unfold map
  split
  · split
    · exact Priced.pure _
    · exact Priced.pure _
    · exact Priced.throw _
  · apply Priced.bind (priced_retainKeys _ _)
    intro _
    apply Priced.bind
    · apply Priced.foldlM
      intro result e _
      exact priced_mergeField hmerge hfresh result e
    intro _
    apply Priced.bind
    · apply Priced.foldlM
      intro result e _
      exact priced_deleteFromList result e
    intro _
    apply Priced.bind
    · apply Priced.foldlM
      intro result e _
      exact priced_orderList patch result e
    intro _
    exact Priced.pure _

/-- A merge has one price and one result on every budget that suffices. -/
theorem priced_merge (schemas : Json) (levels : ℕ) (original patch schema : Json) :
    Priced (Strategic.merge schemas levels original patch schema) := by
  induction levels generalizing original patch schema with
  | zero =>
    apply Priced.bind (priced_spend 1)
    intro _
    exact Priced.throw _
  | succ levels ih =>
    apply Priced.bind (priced_spend 1)
    intro _
    split
    · exact priced_map ih (priced_fresh levels) _
    · split_ifs
      · exact priced_list ih _ _
      · exact Priced.pure _
    · exact Priced.pure _

end Hedronetes.Strategic
