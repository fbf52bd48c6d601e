import PutValidator.Lib.Codec
import PutValidator.Lib.Except
import PutValidator.Lib.Word

/-! `ShortU16` and `short_vec` (`sdk/program/src/short_vec.rs`): a length below `2 ^ 16` in one
to three bytes, seven bits a byte, low bits first, with the top bit of a byte set when another
byte follows. The decoder refuses a zero byte after the first (an alias encoding), a third byte
that asks for a fourth, and a value that does not fit a `u16`, so every length has exactly one
encoding: `decodeShortu16Len_encode` and `decodeShortu16Len_sound` are the two directions, and
`shortU16` is the codec they make. -/
namespace PutValidator

open Lib.Word Lib.Codec Lib.Except

inductive VisitStatus
  | done (val : Nat)
  | more (val : Nat)
deriving DecidableEq, Repr

inductive VisitError
  | tooLong (len : Nat)
  | tooShort (len : Nat)
  | overflow (val : Nat)
  | alias
  | byteThreeContinues
deriving DecidableEq, Repr

/-- `MAX_ENCODING_LENGTH`. -/
def maxEncodingLength : Nat := 3

/-- `visit_byte`: the `nth_byte`-th byte of a `ShortU16` over the value read so far, both
widened to `u32`. -/
def visitByte (elem : UInt8) (val nthByte : Nat) : Except VisitError VisitStatus := do
  failIf (elem = 0 ∧ nthByte ≠ 0) .alias
  let elemVal := elem.toNat &&& 0x7f
  let elemDone := elem.toNat &&& 0x80 = 0
  failIf (maxEncodingLength ≤ nthByte) (.tooLong (nthByte + 1))
  failIf (nthByte = maxEncodingLength - 1 ∧ ¬elemDone) .byteThreeContinues
  let shift := nthByte * 7
  -- `checked_shl` of a `u32`
  let elemVal := if shift < 32 then (elemVal <<< shift) % 2 ^ 32 else maxValue 32
  let newVal := val ||| elemVal
  failIf (2 ^ 16 ≤ newVal) (.overflow newVal)
  pure (if elemDone then .done newVal else .more newVal)

/-- `decode_shortu16_len`: the length at the front of `bytes` and the number of bytes it takes;
`none` for the source's `Err(())`. -/
def decodeShortu16Len (bytes : List UInt8) : Option (Nat × Nat) :=
  go (bytes.take maxEncodingLength).zipIdx 0
where
  go : List (UInt8 × Nat) → Nat → Option (Nat × Nat)
    | [], _ => none
    | (byte, nthByte) :: rest, val =>
        match visitByte byte val nthByte with
        | .ok (.more newVal) => go rest newVal
        | .ok (.done newVal) => some (newVal, nthByte + 1)
        | .error _ => none

/-- `ShortU16Visitor::visit_seq` on the bytes the deserializer hands it: the value and the
number of bytes it took. A sequence that ends early is `TooShort`. -/
def visitSeq (seq : List UInt8) : Except VisitError (Nat × Nat) :=
  go (List.range maxEncodingLength) seq 0
where
  go : List Nat → List UInt8 → Nat → Except VisitError (Nat × Nat)
    | [], _, _ => .error .byteThreeContinues
    | nthByte :: _, [], _ => .error (.tooShort (nthByte + 1))
    | nthByte :: nths, elem :: rest, val =>
        match visitByte elem val nthByte with
        | .ok (.done newVal) => .ok (newVal, nthByte + 1)
        | .ok (.more newVal) => go nths rest newVal
        | .error e => .error e

/-- `ShortU16::serialize`; a `u16` has at most three groups of seven bits. -/
def encodeShortU16 (value : Nat) : List UInt8 :=
  go 3 value
where
  go : Nat → Nat → List UInt8
    | 0, _ => []
    | fuel + 1, remVal =>
        let elem := remVal &&& 0x7f
        if remVal >>> 7 = 0 then [UInt8.ofNat elem]
        else UInt8.ofNat (elem ||| 0x80) :: go fuel (remVal >>> 7)

/-! ### The bit operations as arithmetic -/

theorem and_0x7f (x : Nat) : x &&& 0x7f = x % 128 :=
  Nat.and_two_pow_sub_one_eq_mod x 7

theorem and_0x80_eq_zero_iff {x : Nat} (h : x < 256) : x &&& 0x80 = 0 ↔ x < 128 := by
  revert x
  decide +kernel

theorem or_0x80 {x : Nat} (h : x < 128) : x ||| 0x80 = x + 128 :=
  Nat.or_two_pow_eq_add_of_lt (n := 7) h

theorem or_mul_two_pow {val e k : Nat} (hVal : val < 2 ^ k) : val ||| e * 2 ^ k = val + e * 2 ^ k := by
  rw [Nat.or_comm, Nat.mul_comm, ← Nat.two_pow_add_eq_or_of_lt hVal, Nat.add_comm]

theorem toNat_ofNat_of_lt {n : Nat} (h : n < 256) : (UInt8.ofNat n).toNat = n := by
  simp [Nat.mod_eq_of_lt h]

/-- `visit_byte` in arithmetic, for a byte position that the loop reaches and a value that fits
the bits read so far. -/
theorem visitByte_eq {elem : UInt8} {val nthByte : Nat} (hNth : nthByte < maxEncodingLength)
    (hVal : val < 2 ^ (nthByte * 7)) :
    visitByte elem val nthByte =
      let newVal := val + elem.toNat % 128 * 2 ^ (nthByte * 7)
      if elem = 0 ∧ nthByte ≠ 0 then .error .alias
      else if nthByte = 2 ∧ 128 ≤ elem.toNat then .error .byteThreeContinues
      else if 2 ^ 16 ≤ newVal then .error (.overflow newVal)
      else .ok (if elem.toNat < 128 then .done newVal else .more newVal) := by
  unfold maxEncodingLength at hNth
  have hElem : elem.toNat < 256 := elem.toNat_lt
  have hShift : nthByte * 7 < 32 := by omega
  have hPart : elem.toNat % 128 * 2 ^ (nthByte * 7) < 2 ^ 32 :=
    calc elem.toNat % 128 * 2 ^ (nthByte * 7) < 2 ^ 7 * 2 ^ (nthByte * 7) :=
          Nat.mul_lt_mul_of_pos_right (Nat.mod_lt _ (by decide)) (Nat.two_pow_pos _)
      _ = 2 ^ (7 + nthByte * 7) := (Nat.pow_add 2 7 _).symm
      _ ≤ 2 ^ 32 := Nat.pow_le_pow_right (by decide) (by omega)
  have hNewVal : val ||| (elem.toNat &&& 0x7f) <<< (nthByte * 7) % 2 ^ 32 =
      val + elem.toNat % 128 * 2 ^ (nthByte * 7) := by
    rw [and_0x7f, Nat.shiftLeft_eq, Nat.mod_eq_of_lt hPart, or_mul_two_pow hVal]
  have hThree : (nthByte = 3 - 1 ∧ ¬elem.toNat < 128) ↔ (nthByte = 2 ∧ 128 ≤ elem.toNat) := by
    omega
  simp only [visitByte, maxEncodingLength, failIf_bind, and_0x80_eq_zero_iff hElem,
    if_pos hShift, hNewVal, show ¬3 ≤ nthByte by omega, if_false, hThree]
  rfl

/-- The bytes of a length, by how many groups of seven bits it has. -/
theorem encodeShortU16_eq {v : Nat} (hv : v < 2 ^ 16) :
    encodeShortU16 v =
      if v < 128 then [UInt8.ofNat v]
      else if v < 2 ^ 14 then [UInt8.ofNat (v % 128 + 128), UInt8.ofNat (v / 128)]
      else [UInt8.ofNat (v % 128 + 128), UInt8.ofNat (v / 128 % 128 + 128),
        UInt8.ofNat (v / 2 ^ 14)] := by
  have hShift : ∀ x : Nat, x >>> 7 = x / 128 := fun x => Nat.shiftRight_eq_div_pow x 7
  simp only [encodeShortU16, encodeShortU16.go, and_0x7f, hShift,
    or_0x80 (Nat.mod_lt _ (by decide : 0 < 128)), Nat.div_div_eq_div_mul]
  -- a `u16` has at most three groups of seven bits
  rcases Nat.lt_or_ge v 128 with h1 | h1
  · simp only [show v / 128 = 0 by omega, h1, if_true, Nat.mod_eq_of_lt h1]
  · rcases Nat.lt_or_ge v (2 ^ 14) with h2 | h2
    · simp only [show v / 128 ≠ 0 by omega, show v / (128 * 128) = 0 by omega,
        show ¬v < 128 by omega, h2, if_true, if_false, Nat.mod_eq_of_lt (show v / 128 < 128 by omega)]
    · simp only [show v / 128 ≠ 0 by omega, show v / (128 * 128) ≠ 0 by omega,
        show v / (128 * 128 * 128) = 0 by omega, show ¬v < 128 by omega, show ¬v < 2 ^ 14 by omega,
        if_true, if_false, Nat.mod_eq_of_lt (show v / (128 * 128) < 128 by omega)]
      rfl

theorem ofNat_eq_zero_iff {n : Nat} (h : n < 256) : UInt8.ofNat n = 0 ↔ n = 0 := by
  rw [← UInt8.toNat_inj, toNat_ofNat_of_lt h]
  rfl

/-- The byte of a group that ends the encoding. -/
theorem visitByte_done {n val nthByte : Nat} (hNth : nthByte < maxEncodingLength)
    (hVal : val < 2 ^ (nthByte * 7)) (hn : n < 128) (hFirst : n ≠ 0 ∨ nthByte = 0)
    (hFits : val + n * 2 ^ (nthByte * 7) < 2 ^ 16) :
    visitByte (UInt8.ofNat n) val nthByte = .ok (.done (val + n * 2 ^ (nthByte * 7))) := by
  have hByte := toNat_ofNat_of_lt (show n < 256 by omega)
  rw [visitByte_eq hNth hVal]
  simp only [hByte, Nat.mod_eq_of_lt hn, ofNat_eq_zero_iff (show n < 256 by omega)]
  rw [if_neg (by omega), if_neg (by omega), if_neg (by omega), if_pos hn]

/-- The byte of a group that another group follows. -/
theorem visitByte_more {n val nthByte : Nat} (hNth : nthByte < 2)
    (hVal : val < 2 ^ (nthByte * 7)) (hn : n < 128)
    (hFits : val + n * 2 ^ (nthByte * 7) < 2 ^ 16) :
    visitByte (UInt8.ofNat (n + 128)) val nthByte =
      .ok (.more (val + n * 2 ^ (nthByte * 7))) := by
  have hByte := toNat_ofNat_of_lt (show n + 128 < 256 by omega)
  rw [visitByte_eq (by unfold maxEncodingLength; omega) hVal]
  simp only [hByte, show (n + 128) % 128 = n by omega,
    ofNat_eq_zero_iff (show n + 128 < 256 by omega)]
  rw [if_neg (by omega), if_neg (by omega), if_neg (by omega), if_neg (by omega)]

/-- A length is read back from its encoding, whatever follows it. -/
theorem decodeShortu16Len_encode {v : Nat} (hv : v < 2 ^ 16) (rest : List UInt8) :
    decodeShortu16Len (encodeShortU16 v ++ rest) = some (v, (encodeShortU16 v).length) := by
  rw [encodeShortU16_eq hv]
  rcases Nat.lt_or_ge v 128 with h1 | h1
  · have hFirst := @visitByte_done _ 0 0 (by decide) (by decide) h1 (.inr rfl)
      (by omega)
    simp only [h1, if_true, zero_add, Nat.zero_mul, pow_zero, Nat.mul_one] at hFirst ⊢
    simp [decodeShortu16Len, decodeShortu16Len.go, maxEncodingLength, hFirst]
  · rcases Nat.lt_or_ge v (2 ^ 14) with h2 | h2
    · have hFirst := @visitByte_more _ 0 0 (by decide) (by decide)
        (Nat.mod_lt v (by decide : 0 < 128)) (by omega)
      have hSecond := @visitByte_done (v / 128) (v % 128) 1 (by decide)
        (by omega) (by omega) (.inl (by omega)) (by omega)
      simp only [zero_add, Nat.zero_mul, pow_zero, Nat.mul_one] at hFirst
      rw [show v % 128 + v / 128 * 2 ^ (1 * 7) = v by omega] at hSecond
      rw [if_neg (show ¬v < 128 by omega), if_pos h2]
      simp only [List.cons_append, decodeShortu16Len, maxEncodingLength, List.take_succ_cons,
        List.zipIdx_cons, decodeShortu16Len.go, hFirst, hSecond, List.length_cons, List.length_nil]
    · have hFirst := @visitByte_more _ 0 0 (by decide) (by decide)
        (Nat.mod_lt v (by decide : 0 < 128)) (by omega)
      have hSecond := @visitByte_more (v / 128 % 128) (v % 128) 1
        (by decide) (by omega) (Nat.mod_lt _ (by decide)) (by omega)
      have hThird := @visitByte_done (v / 2 ^ 14) (v % 128 + v / 128 % 128 * 2 ^ (1 * 7)) 2
        (by decide) (by omega) (by omega) (.inl (by omega)) (by omega)
      simp only [zero_add, Nat.zero_mul, pow_zero, Nat.mul_one] at hFirst
      rw [show v % 128 + v / 128 % 128 * 2 ^ (1 * 7) + v / 2 ^ 14 * 2 ^ (2 * 7) = v by omega]
        at hThird
      rw [if_neg (show ¬v < 128 by omega), if_neg (show ¬v < 2 ^ 14 by omega)]
      simp only [List.cons_append, decodeShortu16Len, maxEncodingLength, List.take_succ_cons,
        List.zipIdx_cons, decodeShortu16Len.go, hFirst, hSecond, hThird, List.length_cons,
        List.length_nil]

/-- What a byte that `visit_byte` accepts looks like. -/
theorem visitByte_eq_ok {elem : UInt8} {val nthByte : Nat} {status : VisitStatus}
    (hNth : nthByte < maxEncodingLength) (hVal : val < 2 ^ (nthByte * 7))
    (h : visitByte elem val nthByte = .ok status) :
    (elem.toNat ≠ 0 ∨ nthByte = 0) ∧ ¬(nthByte = 2 ∧ 128 ≤ elem.toNat) ∧
      val + elem.toNat % 128 * 2 ^ (nthByte * 7) < 2 ^ 16 ∧
      status = if elem.toNat < 128 then .done (val + elem.toNat % 128 * 2 ^ (nthByte * 7))
        else .more (val + elem.toNat % 128 * 2 ^ (nthByte * 7)) := by
  rw [visitByte_eq hNth hVal] at h
  dsimp only at h
  split_ifs at h with hAlias hThree hOverflow hDone
  all_goals
    have hNonzero : elem.toNat ≠ 0 ∨ nthByte = 0 := by
      by_cases hZero : elem = 0
      · exact .inr (by simpa [hZero] using hAlias)
      · exact .inl fun h0 => hZero (UInt8.toNat_inj.mp h0)
    refine ⟨hNonzero, hThree, Nat.lt_of_not_le hOverflow, ?_⟩
  · rw [if_pos hDone]
    exact (Except.ok.inj h).symm
  · rw [if_neg hDone]
    exact (Except.ok.inj h).symm

theorem ofNat_eq_of_toNat_eq {b : UInt8} {n : Nat} (h : b.toNat = n) : UInt8.ofNat n = b := by
  subst h
  exact UInt8.ofNat_toNat

/-- Whatever `decode_shortu16_len` reads is the encoding of a `u16`. -/
theorem decodeShortu16Len_sound {bytes : List UInt8} {v n : Nat}
    (h : decodeShortu16Len bytes = some (v, n)) :
    v < 2 ^ 16 ∧ n = (encodeShortU16 v).length ∧ bytes = encodeShortU16 v ++ bytes.drop n := by
  match bytes, h with
  | [], h => simp [decodeShortu16Len, decodeShortu16Len.go] at h
  | b0 :: r0, h =>
    simp only [decodeShortu16Len, maxEncodingLength, List.take_succ_cons, List.zipIdx_cons,
      decodeShortu16Len.go] at h
    have hb0 := b0.toNat_lt
    cases h0 : visitByte b0 0 0 with
    | error e => simp [h0] at h
    | ok status0 =>
      obtain ⟨-, -, -, hStatus0⟩ := visitByte_eq_ok (by decide) (by decide) h0
      simp only [zero_add, Nat.zero_mul, pow_zero, Nat.mul_one] at hStatus0
      rw [h0] at h
      by_cases hDone0 : b0.toNat < 128
      · -- one byte
        rw [if_pos hDone0] at hStatus0
        subst hStatus0
        simp only [Option.some.injEq, Prod.mk.injEq] at h
        obtain ⟨rfl, rfl⟩ := h
        refine ⟨by omega, ?_⟩
        rw [encodeShortU16_eq (by omega), if_pos (by omega), Nat.mod_eq_of_lt hDone0,
          ofNat_eq_of_toNat_eq rfl]
        exact ⟨rfl, rfl⟩
      rw [if_neg hDone0] at hStatus0
      subst hStatus0
      match r0, h with
      | [], h => simp [decodeShortu16Len.go] at h
      | b1 :: r1, h =>
        simp only [List.take_succ_cons, List.zipIdx_cons, decodeShortu16Len.go, Nat.reduceAdd] at h
        have hb1 := b1.toNat_lt
        cases h1 : visitByte b1 (b0.toNat % 128) 1 with
        | error e => simp [h1] at h
        | ok status1 =>
          obtain ⟨hAlias1, -, hFits1, hStatus1⟩ :=
            visitByte_eq_ok (by decide) (by simpa using Nat.mod_lt _ (by decide)) h1
          rw [h1] at h
          by_cases hDone1 : b1.toNat < 128
          · -- two bytes
            rw [if_pos hDone1] at hStatus1
            subst hStatus1
            simp only [Option.some.injEq, Prod.mk.injEq] at h
            obtain ⟨rfl, rfl⟩ := h
            refine ⟨hFits1, ?_⟩
            rw [encodeShortU16_eq hFits1, if_neg (by omega), if_pos (by omega)]
            refine ⟨rfl, ?_⟩
            rw [ofNat_eq_of_toNat_eq (show b0.toNat = _ by omega),
              ofNat_eq_of_toNat_eq (show b1.toNat = _ by omega)]
            rfl
          rw [if_neg hDone1] at hStatus1
          subst hStatus1
          match r1, h with
          | [], h => simp [decodeShortu16Len.go] at h
          | b2 :: r2, h =>
            simp only [List.take_succ_cons, List.zipIdx_cons, decodeShortu16Len.go, Nat.reduceAdd,
              Nat.reduceMul, Nat.reducePow] at h
            cases h2 : visitByte b2 (b0.toNat % 128 + b1.toNat % 128 * 128) 2 with
            | error e => simp [h2] at h
            | ok status2 =>
              obtain ⟨hAlias2, hThree2, hFits2, hStatus2⟩ := visitByte_eq_ok (by decide)
                (by omega) h2
              -- a third byte ends the encoding
              rw [if_pos (by omega)] at hStatus2
              subst hStatus2
              rw [h2] at h
              simp only [Option.some.injEq, Prod.mk.injEq] at h
              obtain ⟨rfl, rfl⟩ := h
              refine ⟨hFits2, ?_⟩
              rw [encodeShortU16_eq hFits2, if_neg (by omega), if_neg (by omega)]
              refine ⟨rfl, ?_⟩
              rw [ofNat_eq_of_toNat_eq (show b0.toNat = _ by omega),
                ofNat_eq_of_toNat_eq (show b1.toNat = _ by omega),
                ofNat_eq_of_toNat_eq (show b2.toNat = _ by omega)]
              rfl

/-! ### The deserializer's visitor -/

/-- The visitor's loop and the loop of `decode_shortu16_len` read the same bytes to the same
end: the visitor over the byte positions still allowed, the other over the bytes it took. -/
theorem visitSeq_go_toOption (m k : Nat) (seq : List UInt8) (val : Nat) :
    (visitSeq.go (List.range' k m) seq val).toOption =
      decodeShortu16Len.go ((seq.take m).zipIdx k) val := by
  induction m generalizing k seq val with
  | zero => rfl
  | succ m ih =>
      cases seq with
      | nil => rfl
      | cons elem rest =>
          simp only [List.range'_succ, List.take_succ_cons, List.zipIdx_cons, visitSeq.go,
            decodeShortu16Len.go]
          split <;> simp_all [Except.toOption]

/-- The visitor accepts exactly what `decode_shortu16_len` accepts, with the same value and the
same number of bytes. -/
theorem visitSeq_eq_ok_iff {bytes : List UInt8} {read : Nat × Nat} :
    visitSeq bytes = .ok read ↔ decodeShortu16Len bytes = some read := by
  have h := visitSeq_go_toOption maxEncodingLength 0 bytes 0
  rw [← List.range_eq_range'] at h
  change (visitSeq bytes).toOption = decodeShortu16Len bytes at h
  rw [← h]
  cases visitSeq bytes <;> simp [Except.toOption]

/-- `ShortU16` is a canonical encoding. Every `u16` is read back from its encoding, whatever
follows it, by `decode_shortu16_len` and by the deserializer's visitor, which take exactly the
encoding's bytes; and whatever either of them reads is a `u16` whose encoding is the bytes it
took, so an alias, an over-long or over-large encoding and a truncated one are all refused. -/
theorem shortU16_encoding_bijective :
    (∀ v < 2 ^ 16, ∀ rest : List UInt8,
      decodeShortu16Len (encodeShortU16 v ++ rest) = some (v, (encodeShortU16 v).length) ∧
        visitSeq (encodeShortU16 v ++ rest) = .ok (v, (encodeShortU16 v).length)) ∧
    ∀ (bytes : List UInt8) (v n : Nat),
      (decodeShortu16Len bytes = some (v, n) ∨ visitSeq bytes = .ok (v, n)) →
        v < 2 ^ 16 ∧ encodeShortU16 v = bytes.take n := by
  refine ⟨fun v hv rest => ?_, fun bytes v n hRead => ?_⟩
  · have hDecode := decodeShortu16Len_encode hv rest
    exact ⟨hDecode, visitSeq_eq_ok_iff.mpr hDecode⟩
  · have hDecode : decodeShortu16Len bytes = some (v, n) := by
      rcases hRead with hDecode | hVisit
      · exact hDecode
      · exact visitSeq_eq_ok_iff.mp hVisit
    obtain ⟨hv, hn, hBytes⟩ := decodeShortu16Len_sound hDecode
    refine ⟨hv, ?_⟩
    rw [hBytes, hn, List.take_left' rfl]

theorem shortU16_encoding_bijective_300 :
    (decodeShortu16Len (encodeShortU16 300) = some (300, (encodeShortU16 300).length) ∧
      visitSeq (encodeShortU16 300) = .ok (300, (encodeShortU16 300).length)) ∧
    (300 < 2 ^ 16 ∧ encodeShortU16 300 = [0xac, 0x02].take 2) := by
  have h := shortU16_encoding_bijective
  exact ⟨by simpa using h.1 300 (by decide) [], h.2 [0xac, 0x02] 300 2 (.inl (by decide))⟩

/-! ### The codec -/

/-- `ShortU16` as bincode writes and reads it; its visitor reads the bytes with `visit_byte` as
`decode_shortu16_len` does. -/
def shortU16 : Codec Nat where
  encode := encodeShortU16
  decode bytes := (decodeShortu16Len bytes).bind fun read => some (read.1, bytes.drop read.2)
  Canonical v := v < 2 ^ 16
  decode_encode v rest hv := by
    simp [decodeShortu16Len_encode hv rest]
  decode_sound := by
    intro input v rest h
    simp only [Option.bind_eq_some_iff, Option.some.injEq, Prod.mk.injEq] at h
    obtain ⟨⟨v', n⟩, hRead, rfl, rfl⟩ := h
    obtain ⟨hv, -, hInput⟩ := decodeShortu16Len_sound hRead
    exact ⟨hv, hInput⟩

/-- `short_vec`: a list behind its `ShortU16` length. Serializing more than `u16::MAX`
elements fails in the source; such lists are not canonical here. -/
def shortVec {α : Type} (c : Codec α) : Codec (List α) :=
  prefixed shortU16 c

end PutValidator
