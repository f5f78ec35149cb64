import Mathlib.Data.List.Perm.Subperm
import Mathlib.Data.List.TakeDrop

/-!
# Splicing lists

Inserting a segment at an index and removing a range, as the two operations from which
every edit of a sequence is built, with what they do to lengths, members, order and
initial segments.

Main results:

- Theorem `insertAt_perm`: an insertion adds exactly its segment.
- Theorem `sublist_insertAt`: an insertion keeps the order of what was there.
- Theorem `mem_range_of_not_mem_removeAt`: what a removal removes stood in its range.
- Theorems `take_insertAt_add` and `take_removeAt_sub`: a splice inside an initial
  segment acts on that segment alone.
-/

namespace Splice

variable {α : Type*}

/-- Insert the segment `xs` in front of position `i`. -/
def insertAt (i : Nat) (xs l : List α) : List α :=
  l.take i ++ xs ++ l.drop i

/-- Remove the `k` entries from position `i` on. -/
def removeAt (i k : Nat) (l : List α) : List α :=
  l.take i ++ l.drop (i + k)

/-! ## Lengths and boundary positions -/

@[simp]
theorem insertAt_zero (xs l : List α) : insertAt 0 xs l = xs ++ l := by
  simp [insertAt]

theorem insertAt_length (xs l : List α) : insertAt l.length xs l = l ++ xs := by
  simp [insertAt]

@[simp]
theorem length_insertAt (i : Nat) (xs l : List α) :
    (insertAt i xs l).length = l.length + xs.length := by
  simp only [insertAt, List.length_append, List.length_take, List.length_drop]
  omega

theorem length_removeAt {i k : Nat} {l : List α} (h : i + k ≤ l.length) :
    (removeAt i k l).length = l.length - k := by
  simp only [removeAt, List.length_append, List.length_take, List.length_drop]
  omega

/-! ## Members and order -/

/-- An insertion adds exactly its segment. -/
theorem insertAt_perm (i : Nat) (xs l : List α) : (insertAt i xs l).Perm (xs ++ l) := by
  have hswap : (l.take i ++ xs ++ l.drop i).Perm (xs ++ l.take i ++ l.drop i) :=
    (List.perm_append_comm).append_right _
  simpa [insertAt, List.append_assoc] using hswap

/-- An insertion keeps what was there, in its order. -/
theorem sublist_insertAt (i : Nat) (xs l : List α) : l.Sublist (insertAt i xs l) := by
  have hsplit : (l.take i ++ l.drop i).Sublist (l.take i ++ xs ++ l.drop i) :=
    (List.sublist_append_left _ _).append_right _
  simpa [insertAt] using hsplit

/-- What a removal removes stood in its range. -/
theorem mem_range_of_not_mem_removeAt {i k : Nat} {l : List α} {x : α} (hx : x ∈ l)
    (hnot : x ∉ removeAt i k l) : x ∈ (l.drop i).take k := by
  have hsplit : l.take i ++ ((l.drop i).take k ++ (l.drop i).drop k) = l := by
    rw [List.take_append_drop, List.take_append_drop]
  rw [← hsplit, List.mem_append, List.mem_append] at hx
  rw [removeAt, List.mem_append, ← List.drop_drop] at hnot
  rcases hx with hleft | hrange | hright
  · exact (hnot (Or.inl hleft)).elim
  · exact hrange
  · exact (hnot (Or.inr hright)).elim

/-! ## Positions after an insertion -/

theorem getElem?_insertAt_of_lt {i p : Nat} {xs l : List α} (hp : p < i) (hi : i ≤ l.length) :
    (insertAt i xs l)[p]? = l[p]? := by
  rw [insertAt, List.append_assoc, List.getElem?_append_left (by simp; omega),
    List.getElem?_take_of_lt hp]

theorem getElem?_insertAt_mid {i j : Nat} {xs l : List α} (hj : j < xs.length)
    (hi : i ≤ l.length) : (insertAt i xs l)[i + j]? = xs[j]? := by
  have hlen : (l.take i).length = i := by simp; omega
  have hsub : i + j - i = j := by omega
  rw [insertAt, List.append_assoc, List.getElem?_append_right (by omega), hlen, hsub,
    List.getElem?_append_left hj]

theorem getElem?_insertAt_self {i : Nat} {c : α} {l : List α} (hi : i ≤ l.length) :
    (insertAt i [c] l)[i]? = some c :=
  getElem?_insertAt_mid (j := 0) (by simp) hi

theorem getElem?_insertAt_add {i p : Nat} {xs l : List α} (hp : i ≤ p) (hi : i ≤ l.length) :
    (insertAt i xs l)[p + xs.length]? = l[p]? := by
  have hlen : (l.take i ++ xs).length = i + xs.length := by simp; omega
  rw [insertAt, List.getElem?_append_right (by omega), hlen, List.getElem?_drop]
  congr 1
  omega

/-- The inserted entry stands before every entry that stood at or behind its position. -/
theorem pair_sublist_insertAt_of_le {i q : Nat} {c x : α} {l : List α} (hq : i ≤ q)
    (hx : l[q]? = some x) : [c, x].Sublist (insertAt i [c] l) := by
  have hmem : x ∈ l.drop i := by
    rw [List.mem_iff_getElem?]
    refine ⟨q - i, ?_⟩
    rw [List.getElem?_drop, ← hx]
    congr 1
    omega
  have hpair : ([c] ++ [x]).Sublist (l.take i ++ [c] ++ l.drop i) :=
    (List.sublist_append_right _ _).append (List.singleton_sublist.mpr hmem)
  simpa [insertAt] using hpair

/-- The inserted entry stands behind every entry that stood in front of its position. -/
theorem pair_sublist_insertAt_of_lt {i q : Nat} {c x : α} {l : List α} (hq : q < i)
    (hx : l[q]? = some x) : [x, c].Sublist (insertAt i [c] l) := by
  have hmem : x ∈ l.take i := by
    rw [List.mem_iff_getElem?]
    exact ⟨q, by rw [List.getElem?_take_of_lt hq, hx]⟩
  have hpair : ([x] ++ [c]).Sublist (l.take i ++ ([c] ++ l.drop i)) :=
    (List.singleton_sublist.mpr hmem).append (List.sublist_append_left _ _)
  simpa [insertAt] using hpair

/-! ## Initial segments -/

/-- An insertion does not touch what stands in front of it. -/
theorem take_insertAt_of_le {i m : Nat} {xs l : List α} (hm : m ≤ i) (hi : i ≤ l.length) :
    (insertAt i xs l).take m = l.take m := by
  have hlen : m ≤ (l.take i).length := by simp; omega
  rw [insertAt, List.append_assoc, List.take_append_of_le_length hlen, List.take_take,
    Nat.min_eq_left hm]

/-- A removal does not touch what stands in front of it. -/
theorem take_removeAt_of_le {i k m : Nat} {l : List α} (hm : m ≤ i) (hi : i ≤ l.length) :
    (removeAt i k l).take m = l.take m := by
  have hlen : m ≤ (l.take i).length := by simp; omega
  rw [removeAt, List.take_append_of_le_length hlen, List.take_take, Nat.min_eq_left hm]

/-- An insertion inside an initial segment acts on that segment alone. -/
theorem take_insertAt_add {i b : Nat} {xs l : List α} (hb : i ≤ b) (hi : i ≤ l.length) :
    (insertAt i xs l).take (b + xs.length) = insertAt i xs (l.take b) := by
  have hlen : (l.take i ++ xs).length = i + xs.length := by simp; omega
  have hsub : b + xs.length - (i + xs.length) = b - i := by omega
  rw [insertAt, List.take_append, hlen, hsub, List.take_of_length_le (by omega), insertAt,
    List.take_take, Nat.min_eq_left hb, List.drop_take]

/-- A removal inside an initial segment acts on that segment alone. -/
theorem take_removeAt_sub {i k b : Nat} {l : List α} (hb : i + k ≤ b) (hi : i ≤ l.length) :
    (removeAt i k l).take (b - k) = removeAt i k (l.take b) := by
  have hlen : (l.take i).length = i := by simp; omega
  have hsub : b - k - i = b - (i + k) := by omega
  rw [removeAt, List.take_append, hlen, hsub, List.take_of_length_le (by omega), removeAt,
    List.take_take, Nat.min_eq_left (by omega), List.drop_take]

/-- Two lists with a common initial segment have the same ranges inside it. -/
theorem range_eq_of_take_eq {i k b : Nat} {l l' : List α} (h : l.take b = l'.take b)
    (hb : i + k ≤ b) : (l.drop i).take k = (l'.drop i).take k := by
  have hrange : ∀ m : List α, (m.drop i).take k = ((m.take b).drop i).take k := by
    intro m
    rw [List.drop_take, List.take_take, Nat.min_eq_left (by omega)]
  rw [hrange l, hrange l', h]

/-- Lists that agree on an initial segment agree on every shorter one. -/
theorem take_eq_of_le {b m : Nat} {l l' : List α} (h : l.take b = l'.take b) (hm : m ≤ b) :
    l.take m = l'.take m := by
  have hcut : ∀ r : List α, r.take m = (r.take b).take m := by
    intro r
    rw [List.take_take, Nat.min_eq_left hm]
  rw [hcut l, hcut l', h]

end Splice
