import Phpatcher.Basis.Bytes

/-!
# Decimal numerals in byte strings

`decimal n` is the text a C++ stream prints for a non-negative number, and
`readDigits` the value of a block of digits read after a number already seen.
`scanDigits cutoff` is the loop of a hand-written reader that gives up once
the value read so far no longer has room for another digit.
-/

namespace Phpatcher.Basis

/-- `'0' ≤ c ≤ '9'`. -/
def isDigit (c : UInt8) : Bool := 48 ≤ c && c ≤ 57

/-- The value of a digit. -/
def digitValue (c : UInt8) : Nat := c.toNat - 48

/-- The digit of a value below ten. -/
def digitByte (n : Nat) : UInt8 := (48 + n).toUInt8

theorem isDigit_digitByte {n : Nat} (h : n < 10) : isDigit (digitByte n) = true := by
  interval_cases n <;> rfl

theorem digitValue_digitByte {n : Nat} (h : n < 10) : digitValue (digitByte n) = n := by
  interval_cases n <;> rfl

theorem digitValue_le {c : UInt8} (h : isDigit c = true) : digitValue c ≤ 9 := by
  simp only [isDigit, Bool.and_eq_true, decide_eq_true_eq, UInt8.le_iff_toNat_le] at h
  have : c.toNat ≤ 57 := h.2
  unfold digitValue
  omega

/-- The digits of `n`, most significant first; `fuel` bounds their number. -/
def decimalLoop : Nat → Nat → Bytes
  | 0, _ => []
  | fuel + 1, n => (if n < 10 then [] else decimalLoop fuel (n / 10)) ++ [digitByte (n % 10)]

/-- The decimal text of `n`: a number has fewer digits than itself plus one. -/
def decimal (n : Nat) : Bytes := decimalLoop (n + 1) n

/-- The value of a block of digits that follows the value `v`. -/
def readDigits (v : Nat) (s : Bytes) : Nat := s.foldl (fun v c => v * 10 + digitValue c) v

@[simp] theorem readDigits_append (v : Nat) (a b : Bytes) :
    readDigits v (a ++ b) = readDigits (readDigits v a) b := by
  simp [readDigits]

theorem le_readDigits (v : Nat) (s : Bytes) : v ≤ readDigits v s := by
  induction s generalizing v with
  | nil => exact Nat.le_refl _
  | cons c s ih =>
      have := ih (v * 10 + digitValue c)
      simp only [readDigits, List.foldl_cons] at this ⊢
      omega

theorem decimalLoop_digits (fuel n : Nat) : ∀ c ∈ decimalLoop fuel n, isDigit c = true := by
  induction fuel generalizing n with
  | zero => simp [decimalLoop]
  | succ fuel ih =>
      intro c hc
      simp only [decimalLoop, List.mem_append, List.mem_singleton] at hc
      rcases hc with hc | rfl
      · split at hc
        · simp at hc
        · exact ih _ c hc
      · exact isDigit_digitByte (Nat.mod_lt _ (by omega))

theorem readDigits_decimalLoop (fuel n : Nat) (h : n < fuel) :
    readDigits 0 (decimalLoop fuel n) = n := by
  induction fuel generalizing n with
  | zero => omega
  | succ fuel ih =>
      have hlast : digitValue (digitByte (n % 10)) = n % 10 :=
        digitValue_digitByte (Nat.mod_lt _ (by omega))
      by_cases hn : n < 10
      · simp [decimalLoop, hn, readDigits, Nat.mod_eq_of_lt hn, digitValue_digitByte hn]
      · have hread := ih (n / 10) (by omega)
        rw [decimalLoop, if_neg hn, readDigits_append, hread]
        simp only [readDigits, List.foldl_cons, List.foldl_nil, hlast]
        omega

theorem decimal_digits (n : Nat) : ∀ c ∈ decimal n, isDigit c = true :=
  decimalLoop_digits (n + 1) n

@[simp] theorem readDigits_decimal (n : Nat) : readDigits 0 (decimal n) = n :=
  readDigits_decimalLoop (n + 1) n (Nat.lt_succ_self n)

theorem length_decimalLoop_le (fuel : Nat) {k n : Nat} (hk : 1 ≤ k) (h : n < 10 ^ k) :
    (decimalLoop fuel n).length ≤ k := by
  induction fuel generalizing k n with
  | zero => exact Nat.zero_le _
  | succ fuel ih =>
      rw [decimalLoop, List.length_append, List.length_singleton]
      split
      · exact hk
      next hn =>
        obtain ⟨j, rfl⟩ : ∃ j, k = j + 1 := ⟨k - 1, by omega⟩
        have hj : 1 ≤ j := by
          by_contra hzero
          obtain rfl : j = 0 := by omega
          omega
        have hlt : n / 10 < 10 ^ j := by
          rw [Nat.pow_succ] at h
          exact Nat.div_lt_of_lt_mul (by omega)
        have := ih hj hlt
        omega

/-- A number below `10 ^ k` has at most `k` digits. -/
theorem length_decimal_le {k n : Nat} (hk : 1 ≤ k) (h : n < 10 ^ k) : (decimal n).length ≤ k :=
  length_decimalLoop_le (n + 1) hk h

theorem decimal_ne_nil (n : Nat) : decimal n ≠ [] := by
  simp [decimal, decimalLoop]

/-- The reading loop: after the value `v`, take digits as long as there are
any, and fail on a digit that comes when the value is above `cutoff`. -/
def scanDigits (cutoff : Nat) : Nat → Bytes → Option (Nat × Bytes)
  | v, [] => some (v, [])
  | v, c :: s =>
      if isDigit c then
        if v > cutoff then none else scanDigits cutoff (v * 10 + digitValue c) s
      else some (v, c :: s)

/-- A block of digits is read whole when its value leaves the cutoff room. -/
theorem scanDigits_append {cutoff v : Nat} {ds : Bytes} (hds : ∀ c ∈ ds, isDigit c = true)
    (hv : readDigits v ds ≤ cutoff * 10 + 9) (rest : Bytes) :
    scanDigits cutoff v (ds ++ rest) = scanDigits cutoff (readDigits v ds) rest := by
  induction ds generalizing v with
  | nil => rfl
  | cons c ds ih =>
      have hc : isDigit c = true := hds c List.mem_cons_self
      have hrest : readDigits (v * 10 + digitValue c) ds ≤ cutoff * 10 + 9 := hv
      have hle := le_readDigits (v * 10 + digitValue c) ds
      -- the value so far is at most a tenth of the whole, so the cutoff is not met
      have hcut : ¬ v > cutoff := by omega
      rw [List.cons_append, scanDigits, if_pos hc, if_neg hcut,
        ih (fun d hd => hds d (List.mem_cons_of_mem _ hd)) hrest]
      rfl

/-- The loop stops at the end and in front of a byte that is not a digit. -/
theorem scanDigits_stop {cutoff v : Nat} {rest : Bytes}
    (h : ∀ c, rest.head? = some c → isDigit c = false) :
    scanDigits cutoff v rest = some (v, rest) := by
  cases rest with
  | nil => rfl
  | cons c rest => simp [scanDigits, h c rfl]

/-- What the loop reads is the longest block of digits, as long as its value
leaves the cutoff room. -/
theorem scanDigits_eq_some {cutoff v n : Nat} {s rest : Bytes} (hv : v ≤ cutoff * 10 + 9) :
    scanDigits cutoff v s = some (n, rest) ↔
      ∃ ds, s = ds ++ rest ∧ (∀ c ∈ ds, isDigit c = true) ∧ readDigits v ds = n ∧
        n ≤ cutoff * 10 + 9 ∧ ∀ c, rest.head? = some c → isDigit c = false := by
  constructor
  · intro h
    induction s generalizing v with
    | nil =>
        simp only [scanDigits, Option.some.injEq, Prod.mk.injEq] at h
        obtain ⟨rfl, rfl⟩ := h
        exact ⟨[], rfl, by simp, rfl, hv, by simp⟩
    | cons c s ih =>
        rw [scanDigits] at h
        split at h
        next hc =>
          split at h
          · exact absurd h (by simp)
          next hcut =>
            have hlt : digitValue c ≤ 9 := digitValue_le hc
            obtain ⟨ds, rfl, hds, hread, hn, hstop⟩ := ih (by omega) h
            refine ⟨c :: ds, rfl, ?_, hread, hn, hstop⟩
            simpa [hc] using hds
        next hc =>
          simp only [Option.some.injEq, Prod.mk.injEq] at h
          obtain ⟨rfl, rfl⟩ := h
          exact ⟨[], rfl, by simp, rfl, hv, by simpa using hc⟩
  · intro h
    obtain ⟨ds, rfl, hds, rfl, hn, hstop⟩ := h
    rw [scanDigits_append hds hn, scanDigits_stop hstop]

/-- What `decimal` prints is read back, up to the byte that ends the number. -/
theorem scanDigits_decimal (cutoff : Nat) {n : Nat} (hn : n ≤ cutoff * 10 + 9) {rest : Bytes}
    (hrest : ∀ c, rest.head? = some c → isDigit c = false) :
    scanDigits cutoff 0 (decimal n ++ rest) = some (n, rest) := by
  rw [scanDigits_append (decimal_digits n) (by simpa using hn), readDigits_decimal,
    scanDigits_stop hrest]

end Phpatcher.Basis
