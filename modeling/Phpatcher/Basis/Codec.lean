import Phpatcher.Basis.Bytes
import Phpatcher.Basis.Fallible

/-!
# Binary records

Numbers of a fixed width in the byte order of a machine, and readers of a byte
string. A reader is a computation whose state is what is left to read. It
`Reads m bs a` when from `bs`, whatever follows, it takes exactly `bs` and makes
`a` of it; a writer and a reader agree when the reader reads what the writer
wrote. That composes over sequences and loops.
-/

namespace Phpatcher.Basis

/-! ## Numbers -/

/-- The byte order of a machine. -/
inductive ByteOrder where
  | little
  | big
  deriving DecidableEq, Repr

/-- The `w` low bytes of a number, least significant first. -/
def lowBytes : Nat → Nat → Bytes
  | 0, _ => []
  | w + 1, n => n.toUInt8 :: lowBytes w (n / 256)

/-- The number of a byte string, least significant byte first. -/
def ofLowBytes : Bytes → Nat
  | [] => 0
  | b :: bs => b.toNat + 256 * ofLowBytes bs

/-- The bytes of a number of `w` bytes in memory. -/
def ByteOrder.put (order : ByteOrder) (w n : Nat) : Bytes :=
  match order with
  | little => lowBytes w n
  | big => (lowBytes w n).reverse

/-- The number with the given bytes in memory. -/
def ByteOrder.get (order : ByteOrder) (bs : Bytes) : Nat :=
  match order with
  | little => ofLowBytes bs
  | big => ofLowBytes bs.reverse

@[simp] theorem length_lowBytes (w n : Nat) : (lowBytes w n).length = w := by
  induction w generalizing n with
  | zero => rfl
  | succ w ih => rw [lowBytes, List.length_cons, ih]

@[simp] theorem ByteOrder.length_put (order : ByteOrder) (w n : Nat) :
    (order.put w n).length = w := by
  cases order <;> simp [put]

theorem ofLowBytes_lowBytes (w n : Nat) : ofLowBytes (lowBytes w n) = n % 256 ^ w := by
  induction w generalizing n with
  | zero => simp [lowBytes, ofLowBytes, Nat.mod_one]
  | succ w ih =>
      have hbyte : n.toUInt8.toNat = n % 256 := rfl
      rw [lowBytes, ofLowBytes, ih, hbyte, Nat.pow_succ', Nat.mod_mul]

/-- A number is read back up to the width it was written with. -/
@[simp] theorem ByteOrder.get_put (order : ByteOrder) (w n : Nat) :
    order.get (order.put w n) = n % 256 ^ w := by
  cases order <;> simp [get, put, ofLowBytes_lowBytes]

theorem lowBytes_ofLowBytes (bs : Bytes) : lowBytes bs.length (ofLowBytes bs) = bs := by
  induction bs with
  | nil => rfl
  | cons b bs ih =>
      have hbyte : (b.toNat + 256 * ofLowBytes bs).toUInt8 = b := by
        apply UInt8.toNat_inj.mp
        have hlt := b.toNat_lt
        show (b.toNat + 256 * ofLowBytes bs) % 256 = b.toNat
        omega
      have hrest : (b.toNat + 256 * ofLowBytes bs) / 256 = ofLowBytes bs := by
        have hlt := b.toNat_lt
        omega
      rw [List.length_cons, ofLowBytes, lowBytes, hbyte, hrest, ih]

/-- Every byte string is that of a number. -/
@[simp] theorem ByteOrder.put_get (order : ByteOrder) (bs : Bytes) :
    order.put bs.length (order.get bs) = bs := by
  cases order with
  | little => exact lowBytes_ofLowBytes bs
  | big =>
      have h := lowBytes_ofLowBytes bs.reverse
      rw [List.length_reverse] at h
      rw [put, get, h, List.reverse_reverse]

theorem ofLowBytes_lt (bs : Bytes) : ofLowBytes bs < 256 ^ bs.length := by
  induction bs with
  | nil => exact Nat.one_pos
  | cons b bs ih =>
      have hlt := b.toNat_lt
      rw [ofLowBytes, List.length_cons, Nat.pow_succ']
      omega

theorem ByteOrder.get_lt (order : ByteOrder) (bs : Bytes) : order.get bs < 256 ^ bs.length := by
  cases order with
  | little => exact ofLowBytes_lt bs
  | big =>
      have h := ofLowBytes_lt bs.reverse
      rwa [List.length_reverse] at h

/-- Overwrite bytes from a position on. -/
def overwrite (pos : Nat) (bs buf : Bytes) : Bytes :=
  buf.take pos ++ bs ++ buf.drop (pos + bs.length)

theorem overwrite_start (bs buf : Bytes) : overwrite 0 bs buf = bs ++ buf.drop bs.length := by
  rw [overwrite, List.take_zero, List.nil_append, Nat.zero_add]

/-- Overwriting a slot of the same size. -/
theorem overwrite_slot {before slot bs : Bytes} (h : slot.length = bs.length) (after : Bytes) :
    overwrite before.length bs (before ++ slot ++ after) = before ++ bs ++ after := by
  have hlen : before.length + bs.length = (before ++ slot).length := by simp [h]
  rw [overwrite, hlen, List.drop_left, List.append_assoc before slot, List.take_left]

/-! ## Readers -/

/-- A computation on what is left of a byte string. -/
abbrev Reader (ε α : Type) := Fallible ε Bytes α

namespace Reader

variable {ε α β σ : Type}

/-- Take `n` bytes, or fail where fewer are left. -/
def bytes (short : ε) (n : Nat) : Reader ε Bytes :=
  Fallible.mk fun left =>
    if left.length < n then (.error short, left) else (.ok (left.take n), left.drop n)

/-- Take a number of `w` bytes. -/
def number (short : ε) (order : ByteOrder) (w : Nat) : Reader ε Nat := do
  let bs ← bytes short w
  pure (order.get bs)

/-- Repeat a step that extends a value read so far. -/
def iterate (step : σ → Reader ε σ) : Nat → σ → Reader ε σ
  | 0, s => pure s
  | n + 1, s => do
      let s ← step s
      iterate step n s

/-- From `bs`, whatever follows, the reader takes `bs` and yields `a`. -/
def Reads (m : Reader ε α) (bs : Bytes) (a : α) : Prop :=
  ∀ rest, Fallible.Yields m (bs ++ rest) a rest

theorem Reads.pure (a : α) : Reads (pure a : Reader ε α) [] a :=
  fun _ => Fallible.yields_pure.mpr ⟨rfl, rfl⟩

theorem Reads.bind {m : Reader ε α} {f : α → Reader ε β} {bs bs' : Bytes} {a : α} {b : β}
    (h : Reads m bs a) (h' : Reads (f a) bs' b) : Reads (m >>= f) (bs ++ bs') b := by
  intro rest
  rw [List.append_assoc, Fallible.yields_bind]
  exact ⟨a, bs' ++ rest, h _, h' rest⟩

theorem Reads.bind_pure {m : Reader ε α} {bs : Bytes} {a : α} (h : Reads m bs a) (f : α → β) :
    Reads (m >>= fun a => Pure.pure (f a)) bs (f a) :=
  fun rest => Fallible.yields_bind_pure.mpr ⟨a, h rest, rfl⟩

theorem reads_bytes (short : ε) {n : Nat} {bs : Bytes} (h : bs.length = n) :
    Reads (bytes short n) bs bs := by
  intro rest
  have hlong : ¬ (bs ++ rest).length < n := by
    rw [List.length_append]
    omega
  rw [Fallible.Yields, bytes, Fallible.outcome_mk, if_neg hlong, ← h, List.take_left,
    List.drop_left]

theorem reads_number (short : ε) (order : ByteOrder) (w n : Nat) :
    Reads (number short order w) (order.put w n) (n % 256 ^ w) := by
  have hread := (reads_bytes short (order.length_put w n)).bind_pure order.get
  rwa [ByteOrder.get_put] at hread

/-- A loop reads a sequence of records whose step reads one. -/
theorem reads_iterate {γ : Type} {step : σ → Reader ε σ} {write : γ → Bytes} {add : σ → γ → σ}
    {as : List γ} (h : ∀ a ∈ as, ∀ s, Reads (step s) (write a) (add s a)) (s : σ) :
    Reads (iterate step as.length s) (as.flatMap write) (as.foldl add s) := by
  induction as generalizing s with
  | nil => exact Reads.pure s
  | cons a as ih =>
      rw [List.forall_mem_cons] at h
      exact (h.1 s).bind (ih h.2 (add s a))

/-- A list built by pushing its elements. -/
theorem foldl_push {γ δ : Type} (f : γ → δ) (as : List γ) (acc : List δ) :
    as.foldl (fun acc a => acc ++ [f a]) acc = acc ++ as.map f := by
  induction as generalizing acc with
  | nil => simp
  | cons a as ih =>
      rw [List.foldl_cons, ih, List.map_cons, List.append_assoc, List.singleton_append]

/-- A loop that pushes what each record says reads the list of it. -/
theorem reads_list {γ δ : Type} {step : List δ → Reader ε (List δ)} {write : γ → Bytes}
    (f : γ → δ) {as : List γ} (h : ∀ a ∈ as, ∀ acc, Reads (step acc) (write a) (acc ++ [f a])) :
    Reads (iterate step as.length []) (as.flatMap write) (as.map f) := by
  have hreads := reads_iterate h []
  rwa [foldl_push, List.nil_append] at hreads

/-! ## What a reader takes -/

/-- Whenever the reader yields `a`, the bytes it took satisfy `P` with it. -/
def Takes (m : Reader ε α) (P : Bytes → α → Prop) : Prop :=
  ∀ bs a rest, Fallible.Yields m bs a rest → ∃ taken, bs = taken ++ rest ∧ P taken a

theorem takes_pure (a : α) : Takes (pure a : Reader ε α) fun taken b => taken = [] ∧ b = a := by
  intro bs b rest h
  obtain ⟨rfl, rfl⟩ := Fallible.yields_pure.mp h
  exact ⟨[], rfl, rfl, rfl⟩

theorem Takes.bind {m : Reader ε α} {f : α → Reader ε β} {P : Bytes → α → Prop}
    {Q : α → Bytes → β → Prop} (h : Takes m P) (h' : ∀ a, Takes (f a) (Q a)) :
    Takes (m >>= f) fun taken b => ∃ first second a, taken = first ++ second ∧ P first a ∧
      Q a second b := by
  intro bs b rest hyields
  obtain ⟨a, left, hm, hf⟩ := Fallible.yields_bind.mp hyields
  obtain ⟨first, rfl, hfirst⟩ := h bs a left hm
  obtain ⟨second, rfl, hsecond⟩ := h' a left b rest hf
  exact ⟨first ++ second, (List.append_assoc _ _ _).symm, first, second, a, rfl, hfirst, hsecond⟩

theorem Takes.mono {m : Reader ε α} {P Q : Bytes → α → Prop} (h : Takes m P)
    (hPQ : ∀ taken a, P taken a → Q taken a) : Takes m Q := by
  intro bs a rest hyields
  obtain ⟨taken, hbs, hP⟩ := h bs a rest hyields
  exact ⟨taken, hbs, hPQ taken a hP⟩

theorem takes_bytes (short : ε) (n : Nat) :
    Takes (bytes short n) fun taken a => taken = a ∧ a.length = n := by
  intro bs a rest h
  rw [Fallible.Yields, bytes, Fallible.outcome_mk] at h
  split at h
  · simp at h
  next hlong =>
    obtain ⟨rfl, rfl⟩ : bs.take n = a ∧ bs.drop n = rest := by simpa using h
    exact ⟨bs.take n, (List.take_append_drop n bs).symm, rfl, List.length_take_of_le (by omega)⟩

theorem takes_number (short : ε) (order : ByteOrder) (w : Nat) :
    Takes (number short order w) fun taken a => taken = order.put w a ∧ a < 256 ^ w := by
  refine ((takes_bytes short w).bind fun bs => takes_pure (order.get bs)).mono ?_
  rintro _ _ ⟨bs, _, _, rfl, ⟨rfl, rfl⟩, rfl, rfl⟩
  exact ⟨by rw [List.append_nil, ByteOrder.put_get], order.get_lt bs⟩

/-- A loop takes a sequence of records whose step takes one. -/
theorem takes_iterate {γ : Type} {step : σ → Reader ε σ} {write : γ → Bytes} {add : σ → γ → σ}
    {Fits : γ → Prop}
    (h : ∀ s, Takes (step s) fun taken s' => ∃ c, Fits c ∧ taken = write c ∧ s' = add s c)
    (n : Nat) (s : σ) :
    Takes (iterate step n s) fun taken s' => ∃ cs : List γ, cs.length = n ∧ (∀ c ∈ cs, Fits c) ∧
      taken = cs.flatMap write ∧ s' = cs.foldl add s := by
  induction n generalizing s with
  | zero =>
      refine (takes_pure s).mono ?_
      rintro _ _ ⟨rfl, rfl⟩
      exact ⟨[], rfl, by simp, rfl, rfl⟩
  | succ n ih =>
      refine ((h s).bind fun s' => ih s').mono ?_
      rintro _ _ ⟨_, _, _, rfl, ⟨c, hc, rfl, rfl⟩, cs, rfl, hcs, rfl, rfl⟩
      exact ⟨c :: cs, rfl, List.forall_mem_cons.mpr ⟨hc, hcs⟩, rfl, rfl⟩

/-- A loop that pushes its records takes the list of them. -/
theorem takes_list {γ : Type} {step : List γ → Reader ε (List γ)} {write : γ → Bytes}
    {Fits : γ → Prop}
    (h : ∀ acc, Takes (step acc) fun taken acc' =>
      ∃ c, Fits c ∧ taken = write c ∧ acc' = acc ++ [c]) (n : Nat) :
    Takes (iterate step n []) fun taken cs => cs.length = n ∧ (∀ c ∈ cs, Fits c) ∧
      taken = cs.flatMap write := by
  refine (takes_iterate h n []).mono ?_
  rintro _ _ ⟨cs, hlength, hcs, rfl, rfl⟩
  rw [foldl_push (fun c => c), List.nil_append, List.map_id']
  exact ⟨hlength, hcs, rfl⟩

end Reader

end Phpatcher.Basis
