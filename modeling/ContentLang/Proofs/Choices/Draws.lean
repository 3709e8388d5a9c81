import ContentLang.Proofs.Safety.Panics
import Mathlib.Data.Finset.Card
import Mathlib.Order.Interval.Finset.Nat

/-!
# Draws that are accepted

An even pick among `n` indices multiplies a draw by `n`. The draws that give the index `i` are the
multiples of `n` from `i` times the range of draws onwards; those that are accepted lie in a window
there whose length is a multiple of `n` (`ContentLang.acceptedIndex?_eq_some_iff`). So each index is
left with the same number of them (`ContentLang.card_accepted`), although the window of each index
starts at another remainder.

The pick takes the first draw that is accepted (`ContentLang.Generator.EndsAt`,
`ContentLang.uniformIndex_of_endsAt`).
-/

namespace ContentLang

/-! ### Each index has its share -/

section

variable {n : Nat} (hn : 0 < n) (hrange : n ≤ drawRange)

include hrange in
/-- The draws that are accepted are as many as can be shared evenly. -/
theorem uniformZone_add_one (hn : 0 < n) : uniformZone n + 1 = n * (drawRange / n) := by
  have hmod : (drawRange - n) % n = drawRange % n := (Nat.mod_eq_sub_mod hrange).symm
  have hdiv := Nat.div_add_mod drawRange n
  have hlt := Nat.mod_lt drawRange hn
  rw [uniformZone, hmod]
  omega

include hn hrange in
/-- **When a draw gives an index**: its multiple lies in the window of the index. -/
theorem acceptedIndex?_eq_some_iff {v i : Nat} :
    acceptedIndex? n v = some i ↔
      i * drawRange ≤ v * n ∧ v * n < i * drawRange + n * (drawRange / n) := by
  have hpos : 0 < drawRange := by decide
  have hzone := uniformZone_add_one hrange hn
  have hshare : n * (drawRange / n) ≤ drawRange := Nat.mul_div_le drawRange n
  have hsplit := Nat.div_add_mod (v * n) drawRange
  have hlow := Nat.mod_lt (v * n) hpos
  rw [Nat.mul_comm] at hsplit
  constructor
  · intro h
    unfold acceptedIndex? at h
    split at h
    · obtain rfl := Option.some.inj h
      omega
    · exact nomatch h
  · rintro ⟨hfrom, hto⟩
    have hi : v * n / drawRange = i :=
      Nat.div_eq_of_lt_le hfrom (by rw [Nat.succ_mul]; omega)
    rw [hi] at hsplit
    rw [acceptedIndex?, if_pos (by omega), hi]

include hn hrange in
/-- The draws that give an index follow one another. -/
theorem filter_accepted {i : Nat} (hi : i < n) :
    (Finset.range drawRange).filter (fun v => acceptedIndex? n v = some i) =
      Finset.Ico ((i * drawRange + (n - 1)) / n)
        ((i * drawRange + (n - 1)) / n + drawRange / n) := by
  have hshare : n * (drawRange / n) ≤ drawRange := Nat.mul_div_le drawRange n
  -- The window of the last index ends where the range does.
  have hlast : i * drawRange + drawRange ≤ drawRange * n := by
    rw [← Nat.succ_mul, Nat.mul_comm drawRange]
    exact Nat.mul_le_mul_right _ hi
  -- From where on the multiples are beyond a number.
  have hstart (v : Nat) : (i * drawRange + (n - 1)) / n ≤ v ↔ i * drawRange ≤ v * n := by
    rw [← Nat.lt_succ_iff, Nat.div_lt_iff_lt_mul hn, Nat.succ_mul]
    omega
  have hend (v : Nat) : v < (i * drawRange + (n - 1)) / n + drawRange / n ↔
      v * n < i * drawRange + n * (drawRange / n) := by
    rcases Nat.lt_or_ge v (drawRange / n) with hv | hv
    · have := (Nat.mul_lt_mul_right hn).mpr hv
      rw [Nat.mul_comm (drawRange / n)] at this
      exact ⟨fun _ => by omega, fun _ => hv.trans_le (Nat.le_add_left _ _)⟩
    · obtain ⟨w, rfl⟩ := Nat.exists_eq_add_of_le' hv
      have := hstart w
      rw [Nat.add_mul, Nat.mul_comm (drawRange / n)]
      omega
  ext v
  rw [Finset.mem_filter, Finset.mem_range, Finset.mem_Ico, acceptedIndex?_eq_some_iff hn hrange,
    hstart, hend]
  refine ⟨fun h => h.2, fun h => ⟨?_, h⟩⟩
  exact Nat.lt_of_mul_lt_mul_right (show v * n < drawRange * n by omega)

include hn hrange in
/-- **Every index has the same number of draws**: as often as the number of indices goes into the
range. -/
theorem card_accepted {i : Nat} (hi : i < n) :
    ((Finset.range drawRange).filter fun v => acceptedIndex? n v = some i).card =
      drawRange / n := by
  rw [filter_accepted hn hrange hi, Nat.card_Ico, Nat.add_sub_cancel_left]

end

/-! ### The first draw that is accepted -/

namespace Generator

/-- The generator after so many more draws. -/
def ahead (g : Generator) (k : Nat) : Generator := { g with drawn := g.drawn + k }

/-- **Where an even pick ends**: the draws before the `k`-th are not accepted, and this one gives
the index `i`. -/
def EndsAt (g : Generator) (n k i : Nat) : Prop :=
  (∀ j < k, acceptedIndex? n (g.ahead j).value.toNat = none) ∧
    acceptedIndex? n (g.ahead k).value.toNat = some i

instance (g : Generator) (n k i : Nat) : Decidable (g.EndsAt n k i) :=
  inferInstanceAs (Decidable (_ ∧ _))

theorem ahead_succ (g : Generator) (k : Nat) : g.ahead (k + 1) = g.advance.ahead k := by
  simp only [ahead, advance]
  congr 1
  omega

end Generator

/-- **An even pick takes the first draw that is accepted**, and leaves the generator behind it. -/
theorem uniformIndex_of_endsAt {n k i limit : Nat} {g : Generator} (h : g.EndsAt n k i)
    (hk : k < limit) : uniformIndex n limit g = some (i, g.ahead (k + 1)) := by
  induction k generalizing g limit with
  | zero =>
    obtain ⟨limit, rfl⟩ := Nat.exists_eq_add_one.mpr hk
    have hfirst : acceptedIndex? n g.value.toNat = some i := h.2
    rw [uniformIndex, hfirst]
    rfl
  | succ k ih =>
    obtain ⟨limit, rfl⟩ := Nat.exists_eq_add_one.mpr (Nat.zero_lt_of_lt hk)
    obtain ⟨hbefore, hlast⟩ := h
    have hfirst : acceptedIndex? n g.value.toNat = none := hbefore 0 (Nat.succ_pos k)
    have hrest : g.advance.EndsAt n k i := by
      refine ⟨fun j hj => ?_, ?_⟩
      · rw [← Generator.ahead_succ]
        exact hbefore (j + 1) (by omega)
      · rw [← Generator.ahead_succ]
        exact hlast
    rw [uniformIndex, hfirst]
    exact (ih hrest (by omega)).trans (by rw [← Generator.ahead_succ])

end ContentLang
