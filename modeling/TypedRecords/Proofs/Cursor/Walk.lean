/-!
# Walks of cursors

A cursor is at a position, and from there goes on to another or comes to an end. A `Walk` is the whole of
its way: a cursor that never comes to an end, or is at a place where it cannot go on, has none.
-/

namespace TypedRecords

/-- The positions that a cursor visits, one after the other, where `next` tells what is behind each. -/
inductive Walk {α : Type} (next : α → Option α → Prop) : Option α → List α → Prop
  | stop : Walk next none []
  | visit {a : α} {p : Option α} {as : List α} (hnext : next a p) (h : Walk next p as) :
      Walk next (some a) (a :: as)

namespace Walk
variable {α : Type} {next : α → Option α → Prop}

/-- Where every position but the final one is followed by the one behind it, all of them are visited in
order. By induction from the end. -/
theorem range {f : Nat → α} {n : Nat}
    (hnext : ∀ i < n, next (f i) (if i + 1 < n then some (f (i + 1)) else none)) :
    Walk next (if 0 < n then some (f 0) else none) ((List.range n).map f) := by
  suffices h : ∀ m i, i + m = n →
      Walk next (if i < n then some (f i) else none) ((List.range' i m).map f) by
    rw [List.range_eq_range']
    exact h n 0 (Nat.zero_add n)
  intro m
  induction m with
  | zero =>
    intro i hi
    rw [if_neg (by omega)]
    exact .stop
  | succ m ih =>
    intro i hi
    rw [if_pos (by omega), List.range'_succ]
    exact .visit (hnext i (by omega)) (ih (i + 1) (by omega))

end Walk
end TypedRecords
