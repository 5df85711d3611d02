import Phpatcher.Core.Guards
import Phpatcher.Tools.CommandLines

/-!
# `r` directives, written and read

What `quote_ed`, `make_guard` and `emit_ref` of `changes.cpp` print is read
back by `parse_quoted`, `parse_guard_tokens` and `parse_r_directive` of
`patch.cpp` (`parseRDirective_rDirective`): two programs that share nothing
but the text.
-/

namespace Phpatcher.Tools

open Phpatcher.Basis Phpatcher.Core

/-- How `quote_ed` writes one byte. -/
def quoteByte (c : UInt8) : Bytes :=
  if c = backslash then ascii "\\\\"
  else if c = doubleQuote then ascii "\\\""
  else if c = tab then ascii "\\t"
  else if c = carriageReturn then ascii "\\r"
  else if c = newline then ascii "\\n"
  else [c]

/-- `quote_ed`. -/
def quoteEd (s : Bytes) : Bytes := doubleQuote :: s.flatMap quoteByte ++ [doubleQuote]

/-- The guard `make_guard` prints for the bytes of a run. -/
def guardText (hash : Bool) (bytes : Bytes) : Bytes :=
  if hash then ascii "h:" ++ refHashHex (refHash bytes) else ascii "s:" ++ decimal bytes.length

/-- The line `emit_ref` prints; `pads` are the two paddings of a `TrimPad`
reference. -/
def rDirective (path : Bytes) (begin end_ : Nat) (pads : Option (Bytes × Bytes))
    (guard : Bytes) : Bytes :=
  match pads with
  | some (lpad, rpad) =>
      ascii "r " ++ quoteEd path ++ ascii " " ++ decimal begin ++ ascii " " ++ decimal end_ ++
        ascii " " ++ quoteEd lpad ++ ascii " " ++ quoteEd rpad ++ ascii " # " ++ guard
  | none =>
      ascii "r " ++ quoteEd path ++ ascii " " ++ decimal begin ++ ascii " " ++ decimal end_ ++
        ascii " # " ++ guard

/-! ## Quoted strings -/

theorem parseQuotedBody_quoteByte (out : Bytes) (c d : UInt8) (rest : Bytes) :
    parseQuotedBody out (quoteByte c ++ d :: rest) = parseQuotedBody (out ++ [c]) (d :: rest) := by
  unfold quoteByte
  split_ifs with h1 h2 h3 h4 h5
  · subst h1
    rfl
  · subst h2
    rfl
  · subst h3
    rfl
  · subst h4
    rfl
  · subst h5
    rfl
  · rw [List.singleton_append, parseQuotedBody, if_neg h2, if_neg h1]

theorem parseQuotedBody_quoted (out s rest : Bytes) :
    parseQuotedBody out (s.flatMap quoteByte ++ doubleQuote :: rest) = some (out ++ s, rest) := by
  induction s generalizing out with
  | nil => cases rest <;> simp [parseQuotedBody]
  | cons c s ih =>
      have hrest : ∃ d more, s.flatMap quoteByte ++ doubleQuote :: rest = d :: more :=
        List.exists_cons_of_ne_nil (by simp)
      obtain ⟨d, more, hmore⟩ := hrest
      rw [List.flatMap_cons, List.append_assoc, hmore, parseQuotedBody_quoteByte,
        ← hmore, ih]
      simp

/-- What `quote_ed` writes is read back, whatever follows it. -/
theorem parseQuoted_quoteEd (s rest : Bytes) :
    parseQuoted (quoteEd s ++ rest) = some (s, rest) := by
  have hbody := parseQuotedBody_quoted [] s rest
  simpa [quoteEd, parseQuoted] using hbody

/-! ## Hashes -/

theorem hexValue_hexDigit {d : UInt64} (h : d.toNat < 16) : hexValue (hexDigit d) = some d := by
  obtain ⟨n, hn⟩ : ∃ n, d.toNat = n := ⟨_, rfl⟩
  have hd : d = UInt64.ofNat n := by rw [← hn, UInt64.ofNat_toNat]
  rw [hn] at h
  rw [hd]
  -- sixteen digits, each computed
  interval_cases n <;> rfl

/-- Digit `j` of a lane, as a number. -/
def nibble (v : UInt64) (j : Nat) : UInt64 := (v >>> (4 * (15 - j)).toUInt64) &&& 0xf

theorem toNat_nibble (v : UInt64) {j : Nat} (hj : j < 16) :
    (nibble v j).toNat = v.toNat / 16 ^ (15 - j) % 16 := by
  have hshift : (4 * (15 - j)).toUInt64.toNat % 64 = 4 * (15 - j) := by
    rw [Nat.toUInt64, UInt64.toNat_ofNat']
    omega
  rw [nibble, UInt64.toNat_and, UInt64.toNat_shiftRight, hshift, Nat.shiftRight_eq_div_pow,
    Nat.pow_mul, show (0xf : UInt64).toNat = 2 ^ 4 - 1 from rfl, Nat.and_two_pow_sub_one_eq_mod]

/-- One more digit: from the first `j` digits of `v` to the first `j + 1`. -/
theorem shift_or_nibble (v a : UInt64) {j : Nat} (hj : j < 16)
    (ha : a.toNat = v.toNat / 16 ^ (16 - j)) :
    ((a <<< 4) ||| nibble v j).toNat = v.toNat / 16 ^ (15 - j) := by
  have hlt : (nibble v j).toNat < 2 ^ 4 := by
    rw [toNat_nibble v hj]
    omega
  have hpow : 16 ^ (16 - j) = 16 ^ (15 - j) * 16 := by
    rw [← Nat.pow_succ]
    congr 1
    omega
  have hbound : v.toNat / 16 ^ (15 - j) < 2 ^ 64 :=
    (Nat.div_le_self _ _).trans_lt v.toNat_lt
  rw [hpow, ← Nat.div_div_eq_div_mul] at ha
  rw [UInt64.toNat_or, UInt64.toNat_shiftLeft, show (4 : UInt64).toNat % 64 = 4 from rfl,
    Nat.mod_eq_of_lt (by rw [Nat.shiftLeft_eq]; omega), ← Nat.shiftLeft_add_eq_or_of_lt hlt,
    toNat_nibble v hj, Nat.shiftLeft_eq, ha]
  omega

/-- The digits of the first lane from digit `j` on are read into `a`. -/
theorem refHashParseLoop_laneA (v : UInt64) (rest : Bytes) (n j : Nat) (hn : j + n = 16)
    (h : RefHash) (ha : h.a.toNat = v.toNat / 16 ^ n) :
    refHashParseLoop j ((List.range' j n).map (fun j => hexDigit (nibble v j)) ++ rest) h =
      refHashParseLoop 16 rest { h with a := v } := by
  induction n generalizing j h with
  | zero =>
      have hv : h.a = v := UInt64.toNat_inj.mp (by simpa using ha)
      simp [show j = 16 by omega, ← hv]
  | succ n ih =>
      have hj : j < 16 := by omega
      have hdigit : hexValue (hexDigit (nibble v j)) = some (nibble v j) :=
        hexValue_hexDigit (by rw [toNat_nibble v hj]; omega)
      have hstep := shift_or_nibble v h.a hj (by rw [ha, show 16 - j = n + 1 by omega])
      rw [List.range'_succ, List.map_cons, List.cons_append, refHashParseLoop, hdigit]
      simp only [if_pos hj]
      exact ih (j + 1) (by omega) { h with a := (h.a <<< 4) ||| nibble v j }
        (by rw [hstep, show 15 - j = n by omega])

/-- The digits of the second lane from digit `j` on are read into `b`. -/
theorem refHashParseLoop_laneB (v : UInt64) (n j : Nat) (hn : j + n = 16)
    (h : RefHash) (hb : h.b.toNat = v.toNat / 16 ^ n) :
    refHashParseLoop (16 + j) ((List.range' j n).map fun j => hexDigit (nibble v j)) h =
      some { h with b := v } := by
  induction n generalizing j h with
  | zero =>
      have hv : h.b = v := UInt64.toNat_inj.mp (by simpa using hb)
      simp [refHashParseLoop, ← hv]
  | succ n ih =>
      have hj : j < 16 := by omega
      have hdigit : hexValue (hexDigit (nibble v j)) = some (nibble v j) :=
        hexValue_hexDigit (by rw [toNat_nibble v hj]; omega)
      have hstep := shift_or_nibble v h.b hj (by rw [hb, show 16 - j = n + 1 by omega])
      rw [List.range'_succ, List.map_cons, refHashParseLoop, hdigit]
      simp only [if_neg (show ¬ 16 + j < 16 by omega)]
      exact ih (j + 1) (by omega) { h with b := (h.b <<< 4) ||| nibble v j }
        (by rw [hstep, show 15 - j = n by omega])

theorem hexLane_eq (v : UInt64) :
    hexLane v = (List.range' 0 16).map fun j => hexDigit (nibble v j) := rfl

/-- A printed hash is read back. -/
theorem refHashParse_refHashHex (h : RefHash) : refHashParse (refHashHex h) = some h := by
  have hzero (v : UInt64) : v.toNat / 16 ^ 16 = 0 := Nat.div_eq_of_lt v.toNat_lt
  have hlen : (refHashHex h).length = 32 := by simp [refHashHex, hexLane]
  rw [refHashParse, if_neg (by simp [hlen]), refHashHex, hexLane_eq,
    refHashParseLoop_laneA h.a _ 16 0 rfl _ (by rw [hzero]; rfl), hexLane_eq]
  exact refHashParseLoop_laneB h.b 16 0 rfl _ (by rw [hzero]; rfl)

/-! ## Guards -/

/-- A reference with the guard `make_guard` prints. -/
def guarded (hash : Bool) (bytes : Bytes) (ref : EdRef) : EdRef :=
  if hash then { ref with hash := some (refHash bytes) }
  else { ref with bytes := some bytes.length }

theorem parseDecimalLoop_digits {v : Nat} {ds : Bytes} (hds : ∀ c ∈ ds, isDigit c = true)
    (hv : readDigits v ds ≤ int64Max) : parseDecimalLoop v ds = some (readDigits v ds) := by
  induction ds generalizing v with
  | nil => rfl
  | cons c ds ih =>
      have hc : isDigit c = true := hds c List.mem_cons_self
      have hle := le_readDigits (v * 10 + digitValue c) ds
      have hrest : readDigits (v * 10 + digitValue c) ds ≤ int64Max := hv
      -- the value with this digit still is at most the whole
      have hroom : ¬ v > (int64Max - digitValue c) / 10 := by omega
      rw [parseDecimalLoop, hc, if_neg (by simp), if_neg hroom,
        ih (fun d hd => hds d (List.mem_cons_of_mem _ hd)) hrest]
      rfl

theorem parseDecimalFull_decimal {n : Nat} (hn : n ≤ int64Max) :
    parseDecimalFull (decimal n) = some n := by
  rw [parseDecimalFull, if_neg (decimal_ne_nil n),
    parseDecimalLoop_digits (decimal_digits n) (by simpa using hn), readDigits_decimal]

/-- The token of a guard. -/
def Guard.text : Guard → Bytes
  | .bytes n => ascii "s:" ++ decimal n
  | .hash h => ascii "h:" ++ refHashHex h

/-- The guard `make_guard` computes for the bytes of a run. -/
def runGuard (hash : Bool) (bytes : Bytes) : Guard :=
  if hash then .hash (refHash bytes) else .bytes bytes.length

theorem guardText_eq (hash : Bool) (bytes : Bytes) :
    guardText hash bytes = Guard.text (runGuard hash bytes) := by
  cases hash <;> rfl

theorem guarded_eq (hash : Bool) (bytes : Bytes) (ref : EdRef) :
    guarded hash bytes ref = ref.withGuard (runGuard hash bytes) := by
  cases hash <;> rfl

/-- A guard `make_guard` can produce: a length is that of a string in memory,
and fits 63 bits. -/
def Guard.Printable : Guard → Prop
  | .bytes n => n ≤ int64Max
  | .hash _ => True

theorem runGuard_printable (hash : Bool) {bytes : Bytes} (hlen : bytes.length ≤ int64Max) :
    Guard.Printable (runGuard hash bytes) := by
  cases hash
  · exact hlen
  · trivial

/-- What a guard token is made of; 0 stands for a digit that does not exist. -/
def guardAlphabet : Bytes := 0 :: ascii "s:h0123456789abcdef"

theorem hexDigit_mem (d : UInt64) : hexDigit d ∈ guardAlphabet := by
  unfold hexDigit
  rw [List.getD_eq_getElem?_getD]
  cases h : (ascii "0123456789abcdef")[d.toNat]? with
  | none => exact List.mem_cons_self
  | some c => exact List.mem_cons_of_mem _ (List.mem_append_right (ascii "s:h")
      (List.mem_of_getElem? h))

theorem Guard.mem_text {g : Guard} {c : UInt8} (h : c ∈ Guard.text g) : c ∈ guardAlphabet := by
  have hlabel : ascii "s:" ++ ascii "h:" ⊆ guardAlphabet := by
    have hall : (ascii "s:" ++ ascii "h:").all guardAlphabet.contains = true := by decide
    exact fun c hc => List.contains_iff_mem.mp (List.all_eq_true.mp hall c hc)
  cases g with
  | bytes n =>
      have hdigit : ∀ c, isDigit c = true → c ∈ guardAlphabet := by
        intro c hc
        simp only [isDigit, Bool.and_eq_true, decide_eq_true_eq, UInt8.le_iff_toNat_le] at hc
        obtain ⟨k, hk⟩ : ∃ k, c.toNat = k := ⟨_, rfl⟩
        have hc' : c = UInt8.ofNat k := by rw [← hk, UInt8.ofNat_toNat]
        rw [hk] at hc
        rw [hc']
        obtain ⟨hlo, hhi⟩ : 48 ≤ k ∧ k ≤ 57 := hc
        -- ten digits
        interval_cases k <;> decide
      rcases List.mem_append.mp h with h | h
      · exact hlabel (List.mem_append_left _ h)
      · exact hdigit c (decimal_digits n c h)
  | hash v =>
      rcases List.mem_append.mp h with h | h
      · exact hlabel (List.mem_append_right _ h)
      · -- either lane is sixteen digits
        rcases List.mem_append.mp h with h | h
        all_goals
          obtain ⟨j, _, rfl⟩ := List.mem_map.mp h
          exact hexDigit_mem _

/-- A printed token is read back. -/
theorem Guard.ofToken_text {g : Guard} (hg : Guard.Printable g) :
    Guard.ofToken (Guard.text g) = some g := by
  cases g with
  | bytes n =>
      have htoken : Guard.ofToken (Guard.text (.bytes n)) =
          (parseDecimalFull (decimal n)).map .bytes := rfl
      rw [htoken, parseDecimalFull_decimal hg]
      rfl
  | hash h =>
      have htoken : Guard.ofToken (Guard.text (.hash h)) =
          (refHashParse (refHashHex h)).map .hash := rfl
      rw [htoken, refHashParse_refHashHex]
      rfl

/-- It holds no blank, so it is the only token. -/
theorem Guard.ofText_text {g : Guard} (hg : Guard.Printable g) :
    Guard.ofText (Guard.text g) = some [g] := by
  have hspace : space ∉ guardAlphabet := by decide
  have hne : Guard.text g ≠ [] := by cases g <;> exact List.cons_ne_nil _ _
  rw [Guard.ofText, List.splitOn_eq_singleton fun h => hspace (Guard.mem_text h),
    List.filter_cons_of_pos (by simpa using hne), List.filter_nil, List.mapM_cons,
    Guard.ofToken_text hg]
  rfl

/-- A printed guard is read back. -/
theorem parseGuardTokens_text {g : Guard} (hg : Guard.Printable g) (ref : EdRef) :
    parseGuardTokens (Guard.text g) ref = some (ref.withGuard g) :=
  parseGuardTokens_eq_some.mpr ⟨[g], Guard.ofText_text hg, List.cons_ne_nil _ _, rfl⟩

/-! ## Directives -/

/-- The transform and paddings of a reference. -/
def padded (pads : Option (Bytes × Bytes)) (ref : EdRef) : EdRef :=
  match pads with
  | some (lpad, rpad) => { ref with lpad, rpad, transform := .trimPad }
  | none => ref

/-- The paddings as they stand in front of the guard. -/
def padsText : Option (Bytes × Bytes) → Bytes
  | some (lpad, rpad) => quoteEd lpad ++ space :: quoteEd rpad ++ [space]
  | none => []

theorem skipBlanks_decimal (n : Nat) (s : Bytes) :
    skipBlanks (space :: (decimal n ++ s)) = decimal n ++ s := by
  obtain ⟨d, rest, hd⟩ := List.exists_cons_of_ne_nil (decimal_ne_nil n)
  have hdigit : isDigit d = true := decimal_digits n d (hd ▸ List.mem_cons_self)
  have hne : ¬ isSkipped d = true := by
    intro h
    simp only [isSkipped, Bool.or_eq_true, beq_iff_eq] at h
    rcases h with rfl | rfl <;> exact absurd hdigit (by decide)
  rw [hd, skipBlanks, List.dropWhile_cons_of_pos (by rfl), List.cons_append,
    List.dropWhile_cons_of_neg hne]

theorem skipBlanks_padsText (pads : Option (Bytes × Bytes)) (s : Bytes) :
    skipBlanks (space :: (padsText pads ++ Basis.hash :: s)) =
      padsText pads ++ Basis.hash :: s := by
  cases pads <;> rfl

theorem readPads_padsText (pads : Option (Bytes × Bytes)) (s : Bytes) (ref : EdRef) :
    readPads (padsText pads ++ Basis.hash :: s) ref =
      some (padded pads ref, Basis.hash :: s) := by
  cases pads with
  | none => rfl
  | some pads =>
      obtain ⟨lpad, rpad⟩ := pads
      have htext : padsText (some (lpad, rpad)) ++ Basis.hash :: s =
          quoteEd lpad ++ (space :: (quoteEd rpad ++ (space :: Basis.hash :: s))) := by
        simp [padsText]
      have hquote : ∀ t : Bytes, (quoteEd lpad ++ t).head? = some doubleQuote := fun _ => rfl
      have hskip : ∀ t : Bytes, skipBlanks (space :: (quoteEd rpad ++ t)) = quoteEd rpad ++ t :=
        fun _ => rfl
      have hend : skipBlanks (space :: Basis.hash :: s) = Basis.hash :: s := rfl
      simp only [htext, readPads, hquote, if_true, parseQuoted_quoteEd, hskip, hend,
        Option.bind_eq_bind, Option.bind_some, padded, Option.pure_def]

/-- What `emit_ref` prints is a complete directive up to its guard. -/
theorem directiveParts_rDirective (path : Bytes) {begin end_ : Nat}
    (pads : Option (Bytes × Bytes)) (guard : Bytes) (hbegin : 1 ≤ begin) (hend : begin ≤ end_)
    (hmax : end_ ≤ readUintMax) :
    directiveParts (rDirective path begin end_ pads guard) =
      some (padded pads { path, begin, end_ }, guard) := by
  have hline : rDirective path begin end_ pads guard =
      114 :: space :: (quoteEd path ++ space :: (decimal begin ++ space :: (decimal end_ ++
        space :: (padsText pads ++ Basis.hash :: space :: guard)))) := by
    cases pads <;> simp [rDirective, ascii, padsText]
  have hnum : ∀ n, n ≤ readUintMax → ∀ s,
      readUint (decimal n ++ space :: s) = some (n, space :: s) := by
    intro n hn s
    apply readUint_decimal hn _
    intro c hc
    simp only [List.head?_cons, Option.some.injEq] at hc
    subst hc
    rfl
  have hpath : ∀ s, readPath (skipBlanks (quoteEd path ++ s)) = some (path, s) := by
    intro s
    have hquote : skipBlanks (quoteEd path ++ s) = quoteEd path ++ s := rfl
    have hhead : (quoteEd path ++ s).head? = some doubleQuote := rfl
    rw [hquote, readPath, if_pos hhead, parseQuoted_quoteEd]
  have hrange : ¬ (begin < 1 ∨ end_ < begin) := by omega
  rw [hline]
  simp only [directiveParts, List.take_succ_cons, List.take_zero, List.drop_succ_cons,
    List.drop_zero, hpath, skipBlanks_decimal, hnum _ (hend.trans hmax), hnum _ hmax,
    skipBlanks_padsText, readPads_padsText, hrange, Option.bind_eq_bind, Option.bind_some,
    if_false]
  simp [ascii]

/-- It is read back as the reference it was printed for. -/
theorem parseRDirective_guard (path : Bytes) {begin end_ : Nat} (pads : Option (Bytes × Bytes))
    {g : Guard} (hbegin : 1 ≤ begin) (hend : begin ≤ end_) (hmax : end_ ≤ readUintMax)
    (hg : Guard.Printable g) :
    parseRDirective (rDirective path begin end_ pads (Guard.text g)) =
      some ((padded pads { path, begin, end_ }).withGuard g) := by
  rw [parseRDirective_eq, directiveParts_rDirective path pads _ hbegin hend hmax,
    Option.bind_some]
  exact parseGuardTokens_text hg _

theorem parseRDirective_rDirective (path : Bytes) {begin end_ : Nat}
    (pads : Option (Bytes × Bytes)) (hash : Bool) {bytes : Bytes} (hbegin : 1 ≤ begin)
    (hend : begin ≤ end_) (hmax : end_ ≤ readUintMax) (hlen : bytes.length ≤ int64Max) :
    parseRDirective (rDirective path begin end_ pads (guardText hash bytes)) =
      some (guarded hash bytes (padded pads { path, begin, end_ })) := by
  rw [guardText_eq, guarded_eq]
  exact parseRDirective_guard path pads hbegin hend hmax (runGuard_printable hash hlen)

/-- Escaped, a byte string holds no newline. -/
theorem newline_not_mem_quoteEd (s : Bytes) : newline ∉ quoteEd s := by
  have hbyte : ∀ c : UInt8, newline ∉ quoteByte c := by
    intro c
    unfold quoteByte
    split_ifs with h1 h2 h3 h4 h5
    -- an escaped byte, or one that is no newline
    any_goals decide
    exact fun h => h5 (List.mem_singleton.mp h).symm
  simp only [quoteEd, List.mem_append, List.mem_cons, List.mem_flatMap, List.not_mem_nil, or_false,
    not_or]
  exact ⟨⟨by decide, fun ⟨c, _, hc⟩ => hbyte c hc⟩, by decide⟩

/-- What `emit_ref` prints in front of its newline is one line. -/
theorem newline_not_mem_rDirective (path : Bytes) (begin end_ : Nat)
    (pads : Option (Bytes × Bytes)) {guard : Bytes} (hguard : newline ∉ guard) :
    newline ∉ rDirective path begin end_ pads guard := by
  have hdecimal : ∀ n, newline ∉ decimal n := fun n h =>
    absurd (decimal_digits n _ h) (by decide)
  have hseparators : newline ∉ ascii "r " ∧ newline ∉ ascii " " ∧ newline ∉ ascii " # " := by
    decide
  obtain ⟨hr, hblank, hmark⟩ := hseparators
  cases pads <;>
    simp [rDirective, newline_not_mem_quoteEd, hdecimal, hr, hblank, hmark, hguard]

end Phpatcher.Tools
