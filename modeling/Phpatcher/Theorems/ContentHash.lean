import Phpatcher.Basis.Lanes
import Phpatcher.Glue.Resolver
import Phpatcher.Tools.Directive

/-!
# The content hash

Both lanes of `ref_hash` absorb the same words and end with the length. Their
multipliers can be divided out, so a single changed byte changes both lanes,
and the resolver notices it (`single_change_rejected`). Printed, a hash is 32
lower-case digits, and what is read back is what was printed, whatever the case
of the digits (`hash_text`).
-/

namespace Phpatcher.Theorems

open Phpatcher.Basis Phpatcher.Core Phpatcher.Glue Phpatcher.Tools

/-! ## One changed byte -/

/-- The multiplier of lane `a`. -/
def laneA : Multiplier := ⟨1099511628211, 0xce965057aff6957b, by decide⟩

/-- The multiplier of lane `b`. -/
def laneB : Multiplier := ⟨0x9E3779B97F4A7C15, 0xf1de83e19937733d, by decide⟩

/-- The words a lane absorbs: every byte, then the length. -/
def hashWords (s : Bytes) : List UInt64 := s.map UInt8.toUInt64 ++ [s.length.toUInt64]

theorem foldl_mix (words : List UInt64) (h : RefHash) :
    words.foldl RefHash.mix h = ⟨laneA.absorbAll h.a words, laneB.absorbAll h.b words⟩ := by
  induction words generalizing h with
  | nil => rfl
  | cons v words ih => exact ih (h.mix v)

/-- A hash is its two lanes. -/
theorem refHash_eq (s : Bytes) :
    refHash s = ⟨laneA.absorbAll 14695981039346656037 (hashWords s),
      laneB.absorbAll 1469598103934665603 (hashWords s)⟩ := by
  rw [← foldl_mix (hashWords s) ⟨14695981039346656037, 1469598103934665603⟩, hashWords,
    List.foldl_append, List.foldl_map]
  rfl

/-- Two texts of one length differ in exactly one position. -/
def DifferInOne (s t : Bytes) : Prop := s.length = t.length ∧ ∃! i : Nat, s[i]? ≠ t[i]?

theorem DifferInOne.split {s t : Bytes} (h : DifferInOne s t) :
    ∃ before c d after, c ≠ d ∧ s = before ++ c :: after ∧ t = before ++ d :: after := by
  obtain ⟨hlen, i, hi, honly⟩ := h
  have hsame : ∀ j, j ≠ i → s[j]? = t[j]? := fun j hj => by
    by_contra hdiffers
    exact hj (honly j hdiffers)
  have his : i < s.length := by
    by_contra hbeyond
    exact hi (by rw [List.getElem?_eq_none (by omega), List.getElem?_eq_none (by omega)])
  have hit : i < t.length := hlen ▸ his
  rw [List.getElem?_eq_getElem his, List.getElem?_eq_getElem hit] at hi
  refine ⟨s.take i, s[i], t[i], s.drop (i + 1), fun heq => hi (congrArg some heq), ?_, ?_⟩
  · rw [← List.drop_eq_getElem_cons his, List.take_append_drop]
  · -- in front of the position and behind it the texts are the same
    have hbefore : s.take i = t.take i := by
      apply List.ext_getElem?
      intro j
      by_cases hj : j < i
      · rw [List.getElem?_take_of_lt hj, List.getElem?_take_of_lt hj, hsame j (by omega)]
      · rw [List.getElem?_eq_none (by simp; omega), List.getElem?_eq_none (by simp; omega)]
    have hafter : s.drop (i + 1) = t.drop (i + 1) := by
      apply List.ext_getElem?
      intro j
      rw [List.getElem?_drop, List.getElem?_drop, hsame _ (by omega)]
    rw [hbefore, hafter, ← List.drop_eq_getElem_cons hit, List.take_append_drop]

theorem toUInt64_injective : Function.Injective UInt8.toUInt64 := by
  intro c d h
  apply UInt8.toNat_inj.mp
  rw [← UInt8.toNat_toUInt64, h, UInt8.toNat_toUInt64]

/-- One changed byte changes what every lane is left with. -/
theorem absorbAll_ne_of_differInOne (m : Multiplier) (seed : UInt64) {s t : Bytes}
    (h : DifferInOne s t) :
    m.absorbAll seed (hashWords s) ≠ m.absorbAll seed (hashWords t) := by
  have hlen := h.1
  obtain ⟨before, c, d, after, hne, rfl, rfl⟩ := h.split
  rw [hashWords, hashWords, hlen]
  simp only [List.map_append, List.map_cons, List.append_assoc, List.cons_append]
  exact m.absorbAll_ne_of_word seed _ _ (toUInt64_injective.ne hne)

/-- The bytes the resolver hashes for a reference to a file with these lines. -/
def hashedBytes (ref : EdRef) (lines : List Bytes) : Bytes :=
  unlines ((lines.drop (ref.begin - 1)).take (ref.end_ - ref.begin + 1))

/-- A hash guard that does not hold fails the check. -/
theorem checkRef_of_hash_ne {ref : EdRef} {lines : List Bytes} {expected : RefHash}
    (hguard : ref.hash = some expected) (hne : refHash (hashedBytes ref lines) ≠ expected) :
    ∃ error, checkRef ref lines = .error error := by
  have hhash : ref.hash.any (refHash (hashedBytes ref lines) != ·) = true := by
    rw [hguard, Option.any_some, bne_iff_ne]
    exact hne
  unfold checkRef
  split
  · exact ⟨_, rfl⟩
  · simp only
    split
    · exact ⟨_, rfl⟩
    · rw [hashedBytes] at hhash
      rw [if_pos hhash]
      exact ⟨_, rfl⟩

/-- **One changed byte.** Texts that differ in one byte differ in both lanes of
their hashes; so the resolver, with any cache, rejects a reference whose guard
is the hash of such a text. -/
theorem single_change_rejected {guarded found : Bytes} (h : DifferInOne guarded found) :
    (refHash guarded).a ≠ (refHash found).a ∧ (refHash guarded).b ≠ (refHash found).b ∧
      ∀ (baseDir : Bytes) (disk : Disk) (cache : RefCache) (ref : EdRef) (lines : List Bytes),
        ref.hash = some (refHash guarded) →
        (cache.load disk (refFile baseDir ref)).1 = some lines →
        hashedBytes ref lines = found →
        ∃ error, ((phpatcherMakeResolver baseDir disk ref).outcome cache).1 = .error error := by
  have ha : (refHash guarded).a ≠ (refHash found).a := by
    rw [refHash_eq, refHash_eq]
    exact absorbAll_ne_of_differInOne laneA _ h
  have hb : (refHash guarded).b ≠ (refHash found).b := by
    rw [refHash_eq, refHash_eq]
    exact absorbAll_ne_of_differInOne laneB _ h
  refine ⟨ha, hb, ?_⟩
  intro baseDir disk cache ref lines hguard hload hfound
  have hne : refHash (hashedBytes ref lines) ≠ refHash guarded := by
    rw [hfound]
    intro heq
    exact ha (by rw [heq])
  obtain ⟨error, hcheck⟩ := checkRef_of_hash_ne hguard hne
  refine ⟨error, ?_⟩
  rw [phpatcherMakeResolver, Fallible.outcome_mk]
  rcases hentry : cache.load disk (refFile baseDir ref) with ⟨entry, cache'⟩
  rw [hentry] at hload
  obtain rfl : entry = some lines := hload
  simp only [hentry, hcheck]

/-- A file with another letter in its one line, ended by CR LF. -/
theorem single_change_rejected_letter :
    let ref : EdRef := { path := ascii "c", begin := 1, end_ := 1, hash := refHash (ascii "a\n") }
    let disk : Disk := fun path => if path = ascii "/c" then some (ascii "b\r\n") else none
    ∃ error, ((phpatcherMakeResolver [] disk ref).outcome []).1 = .error error := by
  have hdiffer : DifferInOne (ascii "a\n") (ascii "b\n") := by
    refine ⟨rfl, 0, by decide, ?_⟩
    rintro (_ | _ | i) hi
    · rfl
    · exact absurd rfl hi
    · exact absurd rfl hi
  exact (single_change_rejected hdiffer).2.2 [] _ [] _ [ascii "b"] rfl rfl rfl

/-! ## The text of a hash -/

/-- Digit `i` of a lane, counted from the least significant one. -/
def digitFromEnd (lane : UInt64) (i : Nat) : UInt8 := hexDigit ((lane >>> (i * 4).toUInt64) &&& 0xf)

/-- The loop of `ref_hash_hex`: turn `i` fills the slots `15 - i` and `31 - i`. -/
def refHashHexFill (h : RefHash) : Bytes :=
  (List.range 16).foldl
    (fun out i => (out.set (15 - i) (digitFromEnd h.a i)).set (31 - i) (digitFromEnd h.b i))
    (List.replicate 32 48)

/-- The last free slot is filled. -/
theorem set_replicate (k : Nat) (c d : UInt8) (filled : Bytes) :
    (List.replicate (k + 1) c ++ filled).set k d = List.replicate k c ++ d :: filled := by
  induction k with
  | zero => rfl
  | succ k ih => rw [List.replicate_succ, List.cons_append, List.set_cons_succ, ih]; rfl

/-- After `n` turns the last `n` slots of both halves are filled. -/
theorem foldl_set_halves (f g : Nat → UInt8) {n : Nat} (hn : n ≤ 16) :
    (List.range n).foldl (fun out i => (out.set (15 - i) (f i)).set (31 - i) (g i))
        (List.replicate 32 48) =
      (List.replicate (16 - n) 48 ++ ((List.range n).map f).reverse) ++
        (List.replicate (16 - n) 48 ++ ((List.range n).map g).reverse) := by
  induction n with
  | zero => rfl
  | succ n ih =>
      have hfree : 16 - n = 15 - n + 1 := by omega
      have hsecond : 31 - n = 16 + (15 - n) := by omega
      rw [List.range_succ, List.foldl_append, ih (by omega), List.foldl_cons, List.foldl_nil,
        hfree, hsecond, List.set_append_left _ _ (by simp; omega), set_replicate,
        List.set_append_right _ _ (by simp; omega)]
      have hindex : 16 + (15 - n) - (List.replicate (15 - n) (48 : UInt8) ++
          f n :: ((List.range n).map f).reverse).length = 15 - n := by
        simp
        omega
      rw [hindex, set_replicate]
      simp [List.map_append]

/-- Filled from behind or written from the front, the digits are the same. -/
theorem refHashHexFill_eq (h : RefHash) : refHashHexFill h = refHashHex h := by
  have hlane : ∀ lane : UInt64, ((List.range 16).map (digitFromEnd lane)).reverse =
      hexLane lane := by
    intro lane
    rw [hexLane, ← List.map_reverse, List.range_eq_range', List.reverse_range', List.map_map]
    apply List.map_congr_left
    intro j _
    rw [Function.comp_apply, digitFromEnd, Nat.mul_comm, Nat.zero_add]
  rw [refHashHexFill, foldl_set_halves _ _ (Nat.le_refl 16), hlane, hlane]
  rfl

/-- `ref_hash_parse` with its output argument. -/
def refHashParseInto (hex : Bytes) (out : RefHash) : Bool × RefHash :=
  match refHashParse hex with
  | some h => (true, h)
  | none => (false, out)

/-- A lower-case hexadecimal digit. -/
def isLowerHexDigit (c : UInt8) : Bool := isDigit c || (97 ≤ c && c ≤ 102)

/-- A hexadecimal digit of either case. -/
def isHexDigit (c : UInt8) : Bool := isLowerHexDigit c || (65 ≤ c && c ≤ 70)

/-- A letter `A` to `F` in lower case. -/
def lowerHex (c : UInt8) : UInt8 := if 65 ≤ c ∧ c ≤ 70 then c + 32 else c

theorem hexValue_isSome (c : UInt8) : (hexValue c).isSome = isHexDigit c := by
  unfold hexValue isHexDigit isLowerHexDigit isDigit
  split_ifs with hdigit hlower hupper
  · simp [hdigit]
  · simp [hlower]
  · simp [hupper]
  · simp [hdigit, hlower, hupper, ← Bool.decide_and]

theorem exists_ofNat_of_mem {c low high : UInt8} (h : low ≤ c ∧ c ≤ high) :
    ∃ n, low.toNat ≤ n ∧ n ≤ high.toNat ∧ c = UInt8.ofNat n :=
  ⟨c.toNat, UInt8.le_iff_toNat_le.mp h.1, UInt8.le_iff_toNat_le.mp h.2, UInt8.ofNat_toNat.symm⟩

/-- A digit of either case is the lower-case digit of its value. -/
theorem hexDigit_of_hexValue {c : UInt8} {v : UInt64} (h : hexValue c = some v) :
    v.toNat < 16 ∧ hexDigit v = lowerHex c := by
  unfold hexValue at h
  -- the three ranges of digits, each computed
  split_ifs at h with hdigit hlower hupper
  · obtain ⟨n, hlow, hhigh, rfl⟩ := exists_ofNat_of_mem hdigit
    obtain rfl := Option.some.inj h
    change 48 ≤ n at hlow
    change n ≤ 57 at hhigh
    interval_cases n <;> decide
  · obtain ⟨n, hlow, hhigh, rfl⟩ := exists_ofNat_of_mem hlower
    obtain rfl := Option.some.inj h
    change 97 ≤ n at hlow
    change n ≤ 102 at hhigh
    interval_cases n <;> decide
  · obtain ⟨n, hlow, hhigh, rfl⟩ := exists_ofNat_of_mem hupper
    obtain rfl := Option.some.inj h
    change 65 ≤ n at hlow
    change n ≤ 70 at hhigh
    interval_cases n <;> decide

theorem hexDigit_lower {d : UInt64} (h : d.toNat < 16) : isLowerHexDigit (hexDigit d) = true := by
  obtain ⟨n, hn⟩ : ∃ n, d.toNat = n := ⟨_, rfl⟩
  obtain rfl : d = UInt64.ofNat n := by rw [← hn, UInt64.ofNat_toNat]
  rw [hn] at h
  interval_cases n <;> decide

/-- The number a lane's digits are shifted into, from `acc` on. -/
def laneValue (acc : UInt64) : Bytes → Option UInt64
  | [] => some acc
  | c :: rest =>
      match hexValue c with
      | none => none
      | some v => laneValue ((acc <<< 4) ||| v) rest

theorem toNat_shift_or {acc v : UInt64} (hacc : acc.toNat < 16 ^ 15) (hv : v.toNat < 16) :
    ((acc <<< 4) ||| v).toNat = acc.toNat * 16 + v.toNat := by
  have hlt : v.toNat < 2 ^ 4 := hv
  rw [UInt64.toNat_or, UInt64.toNat_shiftLeft, show (4 : UInt64).toNat % 64 = 4 from rfl,
    Nat.mod_eq_of_lt (by rw [Nat.shiftLeft_eq]; omega), ← Nat.shiftLeft_add_eq_or_of_lt hlt,
    Nat.shiftLeft_eq]

/-- The digits shifted in behind the first `j` are digits `j` on of the lane, in
lower case. -/
theorem laneValue_digits {s : Bytes} {j : Nat} (hj : j + s.length = 16) {acc v : UInt64}
    (hacc : acc.toNat < 16 ^ j) (h : laneValue acc s = some v) :
    v.toNat / 16 ^ s.length = acc.toNat ∧
      (List.range' j s.length).map (fun j => hexDigit (nibble v j)) = s.map lowerHex := by
  induction s generalizing j acc with
  | nil =>
      obtain rfl := Option.some.inj h
      exact ⟨by simp, rfl⟩
  | cons c s ih =>
      rw [List.length_cons] at hj ⊢
      rw [laneValue] at h
      cases hc : hexValue c with
      | none => simp [hc] at h
      | some d =>
          simp only [hc] at h
          obtain ⟨hd, hdigit⟩ := hexDigit_of_hexValue hc
          have hpow : 16 ^ j ≤ 16 ^ 15 := Nat.pow_le_pow_right (by omega) (by omega)
          have hshift := toNat_shift_or (hacc.trans_le hpow) hd
          have hbound : ((acc <<< 4) ||| d).toNat < 16 ^ (j + 1) := by
            rw [hshift, Nat.pow_succ]
            omega
          obtain ⟨hrest, htail⟩ := ih (by omega) hbound h
          rw [hshift] at hrest
          have hhead : nibble v j = d := by
            apply UInt64.toNat_inj.mp
            rw [toNat_nibble v (by omega), show 15 - j = s.length by omega, hrest]
            omega
          refine ⟨?_, ?_⟩
          · rw [Nat.pow_succ, ← Nat.div_div_eq_div_mul, hrest]
            omega
          · rw [List.range'_succ, List.map_cons, List.map_cons, hhead, hdigit, htail]

/-- The first sixteen digits go into lane `a`. -/
theorem refHashParseLoop_first {s : Bytes} (rest : Bytes) {i : Nat} (hi : i + s.length = 16)
    (h : RefHash) :
    refHashParseLoop i (s ++ rest) h =
      (laneValue h.a s).bind fun a => refHashParseLoop 16 rest { h with a } := by
  induction s generalizing i h with
  | nil => rw [List.nil_append, show i = 16 by simpa using hi]; rfl
  | cons c s ih =>
      rw [List.length_cons] at hi
      rw [List.cons_append, refHashParseLoop, laneValue]
      cases hexValue c with
      | none => rfl
      | some v =>
          simp only [if_pos (show i < 16 by omega)]
          rw [ih (by omega)]

/-- The others go into lane `b`. -/
theorem refHashParseLoop_second {s : Bytes} {i : Nat} (hi : 16 ≤ i) (h : RefHash) :
    refHashParseLoop i s h = (laneValue h.b s).map fun b => { h with b } := by
  induction s generalizing i h with
  | nil => rfl
  | cons c s ih =>
      rw [refHashParseLoop, laneValue]
      cases hexValue c with
      | none => rfl
      | some v =>
          simp only [if_neg (show ¬ i < 16 by omega)]
          rw [ih (by omega)]

/-- A lane is read unless a character is no digit. -/
theorem laneValue_isSome {s : Bytes} {acc : UInt64} :
    (laneValue acc s).isSome = s.all isHexDigit := by
  induction s generalizing acc with
  | nil => rfl
  | cons c s ih =>
      rw [laneValue, List.all_cons, ← hexValue_isSome]
      cases hexValue c with
      | none => rfl
      | some v =>
          rw [Option.isSome_some, Bool.true_and]
          exact ih

/-- What `ref_hash_parse` makes of 32 characters: sixteen for each lane. -/
theorem refHashParse_eq_some {s : Bytes} {h : RefHash} :
    refHashParse s = some h ↔
      s.length = 32 ∧ laneValue 0 (s.take 16) = some h.a ∧ laneValue 0 (s.drop 16) = some h.b := by
  by_cases hlen : s.length = 32
  · have hfirst := refHashParseLoop_first (s.drop 16) (i := 0) (s := s.take 16)
      (by simp [hlen]) ⟨0, 0⟩
    rw [List.take_append_drop] at hfirst
    rw [refHashParse, if_neg (not_not.mpr hlen), hfirst]
    cases laneValue 0 (s.take 16) with
    | none => simp
    | some a =>
        rw [Option.bind_some, refHashParseLoop_second (Nat.le_refl 16)]
        obtain ⟨a', b'⟩ := h
        simp [hlen, and_comm]
  · simp [refHashParse, hlen]

/-- The text of an accepted hash is what was read, in lower case. -/
theorem refHashHex_of_parse {s : Bytes} {h : RefHash} (hparse : refHashParse s = some h) :
    refHashHex h = s.map lowerHex := by
  obtain ⟨hlen, ha, hb⟩ := refHashParse_eq_some.mp hparse
  have hfirst : (s.take 16).length = 16 := by simp [hlen]
  have hsecond : (s.drop 16).length = 16 := by simp [hlen]
  have hdigitsA := (laneValue_digits (j := 0) (by omega) (by simp) ha).2
  have hdigitsB := (laneValue_digits (j := 0) (by omega) (by simp) hb).2
  rw [hfirst] at hdigitsA
  rw [hsecond] at hdigitsB
  rw [refHashHex, hexLane_eq, hexLane_eq, hdigitsA, hdigitsB, ← List.map_append,
    List.take_append_drop]

/-- Exactly the strings of 32 hexadecimal digits are accepted. -/
theorem refHashParse_isSome {s : Bytes} :
    (refHashParse s).isSome ↔ s.length = 32 ∧ s.all isHexDigit = true := by
  rw [Option.isSome_iff_exists]
  constructor
  · intro h
    obtain ⟨h, hparse⟩ := h
    obtain ⟨hlen, ha, hb⟩ := refHashParse_eq_some.mp hparse
    have hfirst := @laneValue_isSome (s.take 16) 0
    have hsecond := @laneValue_isSome (s.drop 16) 0
    rw [ha, Option.isSome_some] at hfirst
    rw [hb, Option.isSome_some] at hsecond
    refine ⟨hlen, ?_⟩
    rw [← List.take_append_drop 16 s, List.all_append, ← hfirst, ← hsecond]
    rfl
  · intro h
    obtain ⟨hlen, hall⟩ := h
    rw [← List.take_append_drop 16 s, List.all_append, Bool.and_eq_true] at hall
    rw [← @laneValue_isSome _ 0, ← @laneValue_isSome _ 0, Option.isSome_iff_exists,
      Option.isSome_iff_exists] at hall
    obtain ⟨⟨a, ha⟩, b, hb⟩ := hall
    exact ⟨⟨a, b⟩, refHashParse_eq_some.mpr ⟨hlen, ha, hb⟩⟩

/-- The digits `ref_hash_hex` writes. -/
theorem refHashHex_digits (h : RefHash) :
    (refHashHex h).length = 32 ∧ ∀ c ∈ refHashHex h, isLowerHexDigit c = true := by
  refine ⟨by simp [refHashHex, hexLane], fun c hc => ?_⟩
  rw [refHashHex, hexLane_eq, hexLane_eq] at hc
  -- either lane is sixteen digits
  rcases List.mem_append.mp hc with hc | hc
  all_goals
    obtain ⟨j, hj, rfl⟩ := List.mem_map.mp hc
    rw [List.mem_range'_1] at hj
    apply hexDigit_lower
    rw [toNat_nibble _ (by omega)]
    omega

/-- **The text of a hash.** What is printed is 32 lower-case digits and is read
back; what is accepted is 32 digits of either case, and is printed in lower
case; what is rejected leaves the output alone. -/
theorem hash_text :
    (∀ h out, refHashParseInto (refHashHexFill h) out = (true, h)) ∧
      (∀ h, (refHashHexFill h).length = 32 ∧
        ∀ c ∈ refHashHexFill h, isLowerHexDigit c = true) ∧
      (∀ hex out, (refHashParseInto hex out).1 = true ↔
        hex.length = 32 ∧ ∀ c ∈ hex, isHexDigit c = true) ∧
      (∀ hex out, (refHashParseInto hex out).1 = true →
        refHashHexFill (refHashParseInto hex out).2 = hex.map lowerHex) ∧
      ∀ hex out, (refHashParseInto hex out).1 = false → (refHashParseInto hex out).2 = out := by
  simp only [refHashHexFill_eq]
  have haccepted : ∀ hex out, (refHashParseInto hex out).1 = (refHashParse hex).isSome := by
    intro hex out
    unfold refHashParseInto
    cases refHashParse hex <;> rfl
  refine ⟨?_, refHashHex_digits, ?_, ?_, ?_⟩
  · intro h out
    rw [refHashParseInto, refHashParse_refHashHex]
  · intro hex out
    rw [haccepted, refHashParse_isSome, List.all_eq_true]
  · intro hex out htrue
    rw [haccepted, Option.isSome_iff_exists] at htrue
    obtain ⟨h, hparse⟩ := htrue
    rw [refHashParseInto, hparse]
    exact refHashHex_of_parse hparse
  · intro hex out hfalse
    unfold refHashParseInto at hfalse ⊢
    cases hparse : refHashParse hex with
    | none => rfl
    | some h => simp [hparse] at hfalse

end Phpatcher.Theorems
