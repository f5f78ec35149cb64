import Mathlib.Data.List.Basic
import Mathlib.Tactic.Ring

/-!
# Numbers in base 128

A number is written as a sequence of bytes, seven bits a byte and the lowest first.  Every
byte but the last is at least 128.  A number has one shortest encoding and longer ones that
end in bytes without a bit; a reader takes all of them, up to a number of bytes.

A reader is a fold over the bytes that stops at the first byte below 128.  It may be written
out byte by byte and keep its result in several pieces, so the fold is over an arbitrary
state with a step for each position.

Main results:

- Theorem `value_encode`: the shortest encoding has the value that it encodes.
- Theorem `length_encode_value_le`: no encoding is shorter.
- Theorem `split_eq_some_iff`: which part of a buffer is its first number.
- Theorems `readBytes_eq`, `accumulate_eq`, `join_readBytes`: what a reader reads, and the
  value of its result.
-/

namespace Varint

/-! ## Encodings -/

/-- The bytes of one number: the last byte is the first one below 128. -/
def IsVarint : List UInt8 → Prop
  | [] => False
  | b :: bs => if b.toNat < 128 then bs = [] else IsVarint bs

/-- Whether some bytes are one number can be computed. -/
instance decidableIsVarint : DecidablePred IsVarint
  | [] => inferInstanceAs (Decidable False)
  | b :: bs =>
      have := decidableIsVarint bs
      inferInstanceAs (Decidable (if b.toNat < 128 then bs = [] else IsVarint bs))

/-- The number that some bytes stand for. -/
def value : List UInt8 → Nat
  | [] => 0
  | b :: bs => b.toNat % 128 + 128 * value bs

/-- The shortest encoding of a number. -/
def encode (n : Nat) : List UInt8 :=
  if n < 128 then [.ofNat n] else .ofNat (n % 128 + 128) :: encode (n / 128)

/-- A byte without the high bit is the last one. -/
theorem isVarint_cons_of_lt {b : UInt8} {bs : List UInt8} (hb : b.toNat < 128) :
    IsVarint (b :: bs) ↔ bs = [] := by
  rw [IsVarint, if_pos hb]

/-- Behind a byte with the high bit the number goes on. -/
theorem isVarint_cons_of_ge {b : UInt8} {bs : List UInt8} (hb : ¬ b.toNat < 128) :
    IsVarint (b :: bs) ↔ IsVarint bs := by
  rw [IsVarint, if_neg hb]

/-- A number below 128 is its own byte. -/
theorem encode_of_lt {n : Nat} (hn : n < 128) : encode n = [.ofNat n] := by
  rw [encode, if_pos hn]

/-- A greater number starts with its low group and the high bit. -/
theorem encode_of_ge {n : Nat} (hn : ¬ n < 128) :
    encode n = .ofNat (n % 128 + 128) :: encode (n / 128) := by
  rw [encode, if_neg hn]

/-- A number and its encoding, from the last byte to the first. -/
theorem encode_induction {P : Nat → Prop} (hlast : ∀ n, n < 128 → P n)
    (hmore : ∀ n, ¬ n < 128 → P (n / 128) → P n) (n : Nat) : P n := by
  induction n using Nat.strongRecOn with
  | ind n ih =>
      by_cases hn : n < 128
      · exact hlast n hn
      · exact hmore n hn (ih (n / 128) (by omega))

/-- The value of a last byte. -/
theorem toNat_low {n : Nat} (hn : n < 128) : (UInt8.ofNat n).toNat = n := by
  rw [UInt8.toNat_ofNat']
  omega

/-- The value of a byte with the high bit. -/
theorem toNat_high (n : Nat) : (UInt8.ofNat (n % 128 + 128)).toNat = n % 128 + 128 := by
  rw [UInt8.toNat_ofNat']
  omega

/-- An encoding is one number. -/
theorem isVarint_encode (n : Nat) : IsVarint (encode n) := by
  induction n using encode_induction with
  | hlast n hn =>
      rw [encode_of_lt hn, isVarint_cons_of_lt (by rw [toNat_low hn]; exact hn)]
  | hmore n hn ih =>
      rw [encode_of_ge hn, isVarint_cons_of_ge (by rw [toNat_high]; omega)]
      exact ih

/-- The shortest encoding has the value that it encodes. -/
theorem value_encode (n : Nat) : value (encode n) = n := by
  induction n using encode_induction with
  | hlast n hn =>
      rw [encode_of_lt hn, value, value, toNat_low hn]
      omega
  | hmore n hn ih =>
      rw [encode_of_ge hn, value, toNat_high, ih]
      omega

/-- No number has an empty encoding. -/
theorem encode_ne_nil (n : Nat) : encode n ≠ [] := by
  intro hnil
  have hvarint := isVarint_encode n
  rw [hnil] at hvarint
  exact hvarint

/-- The length of the shortest encoding. -/
theorem length_encode_le_iff {n k : Nat} : (encode n).length ≤ k + 1 ↔ n < 128 ^ (k + 1) := by
  induction n using encode_induction generalizing k with
  | hlast n hn =>
      have hpow : 128 ≤ 128 ^ (k + 1) := Nat.le_self_pow (Nat.succ_ne_zero k) 128
      rw [encode_of_lt hn]
      simp only [List.length_singleton]
      omega
  | hmore n hn ih =>
      rw [encode_of_ge hn, List.length_cons]
      cases k with
      | zero =>
          have hpos : 0 < (encode (n / 128)).length :=
            List.length_pos_of_ne_nil (encode_ne_nil _)
          omega
      | succ k =>
          have hpow : 128 ^ (k + 1 + 1) = 128 ^ (k + 1) * 128 := pow_succ 128 (k + 1)
          rw [Nat.add_le_add_iff_right, ih, hpow, Nat.div_lt_iff_lt_mul (by decide)]

/-- So many bytes hold no greater value. -/
theorem value_lt (bs : List UInt8) : value bs < 128 ^ bs.length := by
  induction bs with
  | nil => decide
  | cons b bs ih =>
      rw [value, List.length_cons, Nat.pow_succ]
      omega

/-- No encoding of a number is shorter than the shortest one. -/
theorem length_encode_value_le {bs : List UInt8} (hbs : IsVarint bs) :
    (encode (value bs)).length ≤ bs.length := by
  cases bs with
  | nil => exact hbs.elim
  | cons b bs => exact length_encode_le_iff.mpr (value_lt (b :: bs))

/-- A greater number has no shorter encoding. -/
theorem length_encode_mono {m n : Nat} (h : m ≤ n) :
    (encode m).length ≤ (encode n).length := by
  obtain ⟨k, hk⟩ : ∃ k, (encode n).length = k + 1 :=
    Nat.exists_eq_succ_of_ne_zero (by simpa using encode_ne_nil n)
  rw [hk]
  exact length_encode_le_iff.mpr (Nat.lt_of_le_of_lt h (length_encode_le_iff.mp hk.le))

/-- The bytes of the shortest encoding, all with the high bit set and the last one cleared. -/
theorem encode_eq_map {n k : Nat} (hlt : n < 128 ^ (k + 1)) (hge : k = 0 ∨ 128 ^ k ≤ n) :
    encode n = ((List.range (k + 1)).map fun i => UInt8.ofNat (n / 128 ^ i % 128 + 128)).modify k
      (· &&& 0x7F) := by
  induction k generalizing n with
  | zero =>
      have hclear : UInt8.ofNat (n % 128 + 128) &&& 0x7F = UInt8.ofNat n := by
        apply UInt8.toNat.inj
        have hmask := Nat.and_two_pow_sub_one_eq_mod (n % 128 + 128) 7
        rw [UInt8.toNat_and, toNat_high, toNat_low (by simpa using hlt)]
        change n % 128 + 128 &&& 2 ^ 7 - 1 = n
        rw [hmask]
        omega
      rw [encode_of_lt (by simpa using hlt), List.range_one, List.map_singleton, pow_zero,
        Nat.div_one, List.modify_zero_cons, hclear]
  | succ k ih =>
      have hpow : 128 ^ (k + 1) = 128 ^ k * 128 := pow_succ 128 k
      have hpow' : 128 ^ (k + 1 + 1) = 128 ^ (k + 1) * 128 := pow_succ 128 (k + 1)
      have hpos : 0 < 128 ^ k := Nat.pow_pos (by decide)
      have hn : 128 ^ (k + 1) ≤ n := hge.resolve_left (Nat.succ_ne_zero k)
      rw [encode_of_ge (by omega), ih, List.range_succ_eq_map (n := k + 1), List.map_cons,
        List.modify_succ_cons, List.map_map]
      · congr 1
        · simp
        · congr 2
          funext i
          have hdiv : n / 128 / 128 ^ i = n / 128 ^ (i + 1) := by
            rw [Nat.div_div_eq_div_mul, Nat.pow_succ, Nat.mul_comm]
          simp only [Function.comp_apply, Nat.succ_eq_add_one, hdiv]
      · rw [Nat.div_lt_iff_lt_mul (by decide)]
        omega
      · exact Or.inr ((Nat.le_div_iff_mul_le (by decide)).mpr (by omega))

/-- The length of the shortest encoding, from the two powers that it lies between. -/
theorem length_encode_eq {n k : Nat} (hlt : n < 128 ^ (k + 1)) (hge : k = 0 ∨ 128 ^ k ≤ n) :
    (encode n).length = k + 1 := by
  rw [encode_eq_map hlt hge, List.length_modify, List.length_map, List.length_range]

/-! ## The first number of a buffer -/

/-- The first number of a buffer, if it has at most `limit` bytes, and what comes behind it. -/
def split : Nat → List UInt8 → Option (List UInt8 × List UInt8)
  | 0, _ => none
  | _ + 1, [] => none
  | limit + 1, b :: buffer =>
      if b.toNat < 128 then some ([b], buffer)
      else (split limit buffer).map fun (bs, rest) => (b :: bs, rest)

/-- A number is split off exactly when the bytes start with one of at most `limit` bytes. -/
theorem split_eq_some_iff {limit : Nat} {buffer bs rest : List UInt8} :
    split limit buffer = some (bs, rest) ↔
      IsVarint bs ∧ bs.length ≤ limit ∧ buffer = bs ++ rest := by
  induction limit generalizing buffer bs with
  | zero =>
      rw [split]
      constructor
      · intro h
        cases h
      · rintro ⟨hbs, hlen, -⟩
        rw [List.length_eq_zero_iff.mp (Nat.le_zero.mp hlen)] at hbs
        exact hbs.elim
  | succ limit ih =>
      cases buffer with
      | nil =>
          rw [split]
          constructor
          · intro h
            cases h
          · rintro ⟨hbs, -, hbuffer⟩
            rw [(List.append_eq_nil_iff.mp hbuffer.symm).1] at hbs
            exact hbs.elim
      | cons b buffer =>
          rw [split]
          split_ifs with hb
          · constructor
            · intro h
              obtain ⟨rfl, rfl⟩ : [b] = bs ∧ buffer = rest := by simpa using h
              exact ⟨(isVarint_cons_of_lt hb).mpr rfl, by simp, rfl⟩
            · rintro ⟨hbs, -, hbuffer⟩
              cases bs with
              | nil => exact hbs.elim
              | cons b' bs =>
                  obtain ⟨rfl, rfl⟩ : b = b' ∧ buffer = bs ++ rest := by simpa using hbuffer
                  obtain rfl := (isVarint_cons_of_lt hb).mp hbs
                  rfl
          · rw [Option.map_eq_some_iff]
            constructor
            · rintro ⟨⟨bs', rest'⟩, hsplit, heq⟩
              obtain ⟨rfl, rfl⟩ : b :: bs' = bs ∧ rest' = rest := by simpa using heq
              rcases ih.mp hsplit with ⟨hbs, hlen, rfl⟩
              exact ⟨(isVarint_cons_of_ge hb).mpr hbs, Nat.succ_le_succ hlen, rfl⟩
            · rintro ⟨hbs, hlen, hbuffer⟩
              cases bs with
              | nil => exact hbs.elim
              | cons b' bs =>
                  obtain ⟨rfl, rfl⟩ : b = b' ∧ buffer = bs ++ rest := by simpa using hbuffer
                  exact ⟨(bs, rest), ih.mpr ⟨(isVarint_cons_of_ge hb).mp hbs,
                    Nat.le_of_succ_le_succ hlen, rfl⟩, rfl⟩

/-- A number in front of a buffer is its first number. -/
theorem split_append {limit : Nat} {bs : List UInt8} (rest : List UInt8) (hbs : IsVarint bs)
    (hlen : bs.length ≤ limit) : split limit (bs ++ rest) = some (bs, rest) :=
  split_eq_some_iff.mpr ⟨hbs, hlen, rfl⟩

/-- Two numbers in front of one buffer are the same bytes. -/
theorem IsVarint.append_inj {bs bs' rest rest' : List UInt8} (hbs : IsVarint bs)
    (hbs' : IsVarint bs') (heq : bs ++ rest = bs' ++ rest') : bs = bs' ∧ rest = rest' := by
  have h := split_append rest hbs (Nat.le_max_left bs.length bs'.length)
  have h' := split_append rest' hbs' (Nat.le_max_right bs.length bs'.length)
  rw [heq, h'] at h
  simpa [eq_comm] using h

/-- A buffer that ends in a byte below 128 has a first number, unless it is too long. -/
theorem le_length_of_split_eq_none {limit : Nat} {buffer : List UInt8} {last : UInt8}
    (hlast : buffer.getLast? = some last) (hlow : last.toNat < 128)
    (h : split limit buffer = none) : limit ≤ buffer.length := by
  induction limit generalizing buffer with
  | zero => exact Nat.zero_le _
  | succ limit ih =>
      cases buffer with
      | nil => cases hlast
      | cons b buffer =>
          rw [split] at h
          split_ifs at h with hb
          · rw [Option.map_eq_none_iff] at h
            cases buffer with
            | nil =>
                obtain rfl : b = last := by simpa using hlast
                exact (hb hlow).elim
            | cons b' buffer =>
                rw [List.getLast?_cons_cons] at hlast
                exact Nat.succ_le_succ (ih hlast h)

/-! ## Readers -/

variable {σ : Type*}

/-- The state of a reader after some bytes, from position `i` on. -/
def accumulate (step : Nat → σ → UInt8 → σ) : Nat → σ → List UInt8 → σ
  | _, s, [] => s
  | i, s, b :: bs => accumulate step (i + 1) (step i s b) bs

/-- Read bytes up to the first one below 128, at most `limit` of them: the outer `none` says
that the buffer ended, the inner one that the number is too long. -/
def readBytes (step : Nat → σ → UInt8 → σ) : Nat → Nat → σ → List UInt8 →
    Option (Option (σ × List UInt8))
  | 0, _, _, _ => some none
  | _ + 1, _, _, [] => none
  | limit + 1, i, s, b :: buffer =>
      if b.toNat < 128 then some (some (step i s b, buffer))
      else readBytes step limit (i + 1) (step i s b) buffer

/-- `*(ptr++)`: the next byte of a buffer and what comes behind it. -/
def next : List UInt8 → Option (UInt8 × List UInt8)
  | [] => none
  | b :: buffer => some (b, buffer)

/-- A reader reads the first number of its buffer. -/
theorem readBytes_eq (step : Nat → σ → UInt8 → σ) (limit i : Nat) (s : σ)
    (buffer : List UInt8) :
    readBytes step limit i s buffer =
      match split limit buffer with
      | some (bs, rest) => some (some (accumulate step i s bs, rest))
      | none => if buffer.length < limit then none else some none := by
  induction limit generalizing i s buffer with
  | zero => simp [readBytes, split]
  | succ limit ih =>
      cases buffer with
      | nil => simp [readBytes, split]
      | cons b buffer =>
          rw [readBytes, split]
          by_cases hb : b.toNat < 128
          · rw [if_pos hb, if_pos hb]
            rfl
          · rw [if_neg hb, if_neg hb, ih]
            cases hsplit : split limit buffer with
            | none => simp
            | some pair => rfl

/-- A step that adds the seven bits of its byte at its position, in a result of bounded size,
reads the value of the bytes.  `view` is the number that a state stands for. -/
theorem accumulate_eq {step : Nat → σ → UInt8 → σ} {view : σ → Nat} {limit bound : Nat}
    (hstep : ∀ i s b, i < limit → view s < 128 ^ i →
      view (step i s b) = (view s + b.toNat % 128 * 128 ^ i) % bound)
    {i : Nat} {s : σ} {bs : List UInt8} (hlen : i + bs.length ≤ limit) (hs : view s < 128 ^ i)
    (hbound : view s < bound) :
    view (accumulate step i s bs) = (view s + 128 ^ i * value bs) % bound := by
  induction bs generalizing i s with
  | nil =>
      rw [accumulate, value, Nat.mul_zero, Nat.add_zero, Nat.mod_eq_of_lt hbound]
  | cons b bs ih =>
      rw [List.length_cons] at hlen
      have hview := hstep i s b (by omega) hs
      have hpow : 128 ^ (i + 1) = 128 ^ i * 128 := pow_succ 128 i
      have hdigit : b.toNat % 128 * 128 ^ i ≤ 127 * 128 ^ i :=
        Nat.mul_le_mul_right _ (by omega)
      have hs' : view (step i s b) < 128 ^ (i + 1) := by
        rw [hview]
        exact Nat.lt_of_le_of_lt (Nat.mod_le _ _) (by omega)
      rw [accumulate, ih (by omega) hs' (by rw [hview]; exact Nat.mod_lt _ (by omega)), hview,
        Nat.mod_add_mod, value, hpow]
      congr 1
      ring

/-- What a reader returns is made from the value of the first number of its buffer. -/
theorem join_readBytes {α : Type*} {step : Nat → σ → UInt8 → σ} {view : σ → Nat}
    {limit bound : Nat} {s : σ} {result : σ → α} {toResult : Nat → α}
    (hstep : ∀ i s b, i < limit → view s < 128 ^ i →
      view (step i s b) = (view s + b.toNat % 128 * 128 ^ i) % bound)
    (hresult : ∀ s n, view s = n % bound → result s = toResult n)
    (hs : view s = 0) (hbound : 0 < bound) (buffer : List UInt8) :
    (readBytes step limit 0 s buffer).join.map (Prod.map result id) =
      (split limit buffer).map (Prod.map (fun bs => toResult (value bs)) id) := by
  rw [readBytes_eq]
  cases hsplit : split limit buffer with
  | none => split_ifs <;> rfl
  | some pair =>
      rcases pair with ⟨bs, rest⟩
      rcases split_eq_some_iff.mp hsplit with ⟨-, hlen, -⟩
      have hvalue := accumulate_eq hstep (by omega : 0 + bs.length ≤ limit)
        (by rw [hs]; exact Nat.one_pos) (by rw [hs]; exact hbound)
      rw [hs, Nat.zero_add, pow_zero, Nat.one_mul] at hvalue
      simp [hresult _ _ hvalue]

end Varint
