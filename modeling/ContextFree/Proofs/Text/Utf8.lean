import ContextFree.Text.Utf8

/-!
# UTF-8 is decoded

Bytes are decoded to a text if and only if they are its encoding (`Text.decode_eq_ok_iff`).
-/

namespace ContextFree

namespace Text

variable {byte : UInt8} {bytes rest : List UInt8} {value : Nat} {char : PartialChar}

/-! ## One character -/

namespace PartialChar

/-- The bytes are what is missing of the character, and with them its code point is `value`. -/
inductive Completes : PartialChar → List UInt8 → Nat → Prop where
  | done {char : PartialChar} (missing_eq : char.missing = 0) : Completes char [] char.value
  | push {char next : PartialChar} {byte : UInt8} {bytes : List UInt8} {value : Nat}
      (missing_ne : char.missing ≠ 0) (push_eq : char.push? byte = some next)
      (more : Completes next bytes value) : Completes char (byte :: bytes) value

section

variable {read length missing : Nat} {low high : UInt8}

theorem completes_zero_iff :
    Completes ⟨read, length, 0, low, high⟩ bytes value ↔ bytes = [] ∧ value = read := by
  constructor
  · intro h
    cases h with
    | done => exact ⟨rfl, rfl⟩
    | push hne => exact absurd rfl hne
  · rintro ⟨rfl, rfl⟩
    exact .done rfl

theorem completes_succ_iff : Completes ⟨read, length, missing + 1, low, high⟩ bytes value ↔
    ∃ byte rest, bytes = byte :: rest ∧ (low.toNat ≤ byte.toNat ∧ byte.toNat ≤ high.toNat) ∧
      Completes ⟨read * 64 + (byte.toNat - 0x80), length + 1, missing, 0x80, 0xBF⟩ rest value := by
  constructor
  · intro h
    cases h with
    | done heq => exact absurd heq (Nat.succ_ne_zero missing)
    | push _ hpush hmore =>
      obtain ⟨hrange, hnext⟩ := Option.ite_none_right_eq_some.mp hpush
      obtain rfl := Option.some.inj hnext
      exact ⟨_, _, rfl, hrange, hmore⟩
  · rintro ⟨byte, rest, rfl, hrange, hmore⟩
    exact .push (Nat.succ_ne_zero missing) (if_pos hrange) hmore

end

theorem toNat_of_ofLead?_eq_some (h : ofLead? byte = some char) : byte.toNat < 0x80 ∨
    0xC2 ≤ byte.toNat ∧ byte.toNat < 0xF5 := by
  simp only [ofLead?, UInt8.lt_iff_toNat_lt, ← UInt8.toNat_inj] at h
  grind

theorem ofLead?_one (h : byte.toNat < 0x80) :
    ofLead? byte = some ⟨byte.toNat, 1, 0, 0x80, 0xBF⟩ :=
  if_pos h

theorem ofLead?_two (h : 0xC2 ≤ byte.toNat) (h' : byte.toNat < 0xE0) :
    ofLead? byte = some ⟨byte.toNat - 0xC0, 1, 1, 0x80, 0xBF⟩ := by
  simp only [ofLead?, UInt8.lt_iff_toNat_lt, ← UInt8.toNat_inj]
  grind

theorem ofLead?_three (h : 0xE0 ≤ byte.toNat) (h' : byte.toNat < 0xF0) : ∃ low high : UInt8,
    ofLead? byte = some ⟨byte.toNat - 0xE0, 1, 2, low, high⟩ ∧
      ∀ n, low.toNat ≤ n ∧ n ≤ high.toNat ↔ 0x80 ≤ n ∧ n ≤ 0xBF ∧
        (byte.toNat = 0xE0 → 0xA0 ≤ n) ∧ (byte.toNat = 0xED → n ≤ 0x9F) := by
  refine ⟨if byte.toNat = 0xE0 then 0xA0 else 0x80, if byte.toNat = 0xED then 0x9F else 0xBF, ?_,
    fun n => ?_⟩
  · simp only [ofLead?, UInt8.lt_iff_toNat_lt, ← UInt8.toNat_inj]
    grind
  · rw [apply_ite UInt8.toNat, apply_ite UInt8.toNat]
    grind

theorem ofLead?_four (h : 0xF0 ≤ byte.toNat) (h' : byte.toNat < 0xF5) : ∃ low high : UInt8,
    ofLead? byte = some ⟨byte.toNat - 0xF0, 1, 3, low, high⟩ ∧
      ∀ n, low.toNat ≤ n ∧ n ≤ high.toNat ↔ 0x80 ≤ n ∧ n ≤ 0xBF ∧
        (byte.toNat = 0xF0 → 0x90 ≤ n) ∧ (byte.toNat = 0xF4 → n ≤ 0x8F) := by
  refine ⟨if byte.toNat = 0xF0 then 0x90 else 0x80, if byte.toNat = 0xF4 then 0x8F else 0xBF, ?_,
    fun n => ?_⟩
  · simp only [ofLead?, UInt8.lt_iff_toNat_lt, ← UInt8.toNat_inj]
    grind
  · rw [apply_ite UInt8.toNat, apply_ite UInt8.toNat]
    grind

section

variable {c : Char}

theorem encode_one (h : c.toNat < 0x80) :
    String.utf8EncodeChar c = [UInt8.ofNat c.toNat] :=
  if_pos (Nat.le_of_lt_succ h)

theorem encode_two (h : 0x80 ≤ c.toNat) (h' : c.toNat < 0x800) : String.utf8EncodeChar c =
    [UInt8.ofNat (c.toNat / 64 % 32 + 0xC0), UInt8.ofNat (c.toNat % 64 + 0x80)] :=
  (if_neg (Nat.not_le_of_lt h)).trans (if_pos (Nat.le_of_lt_succ h'))

theorem encode_three (h : 0x800 ≤ c.toNat) (h' : c.toNat < 0x10000) : String.utf8EncodeChar c =
    [UInt8.ofNat (c.toNat / 4096 % 16 + 0xE0), UInt8.ofNat (c.toNat / 64 % 64 + 0x80),
      UInt8.ofNat (c.toNat % 64 + 0x80)] :=
  (if_neg (by change ¬c.toNat ≤ 0x7F; omega)).trans
    ((if_neg (Nat.not_le_of_lt h)).trans (if_pos (Nat.le_of_lt_succ h')))

theorem encode_four (h : 0x10000 ≤ c.toNat) : String.utf8EncodeChar c =
    [UInt8.ofNat (c.toNat / 262144 % 8 + 0xF0), UInt8.ofNat (c.toNat / 4096 % 64 + 0x80),
      UInt8.ofNat (c.toNat / 64 % 64 + 0x80), UInt8.ofNat (c.toNat % 64 + 0x80)] :=
  (if_neg (by change ¬c.toNat ≤ 0x7F; omega)).trans
    ((if_neg (by change ¬c.toNat ≤ 0x7FF; omega)).trans (if_neg (Nat.not_le_of_lt h)))

end

theorem exists_char {value : Nat} (h : value.isValidChar) : ∃ c : Char, c.toNat = value := by
  refine ⟨Char.ofNat value, ?_⟩
  rw [Char.ofNat, dif_pos h]
  rfl

theorem encode_of_completes (hlead : ofLead? byte = some char) (h : char.Completes bytes value) :
    ∃ c : Char, c.toNat = value ∧ String.utf8EncodeChar c = byte :: bytes := by
  obtain hone | ⟨htwo, hfour⟩ := toNat_of_ofLead?_eq_some hlead
  · obtain rfl := Option.some.inj ((ofLead?_one hone).symm.trans hlead)
    obtain ⟨rfl, rfl⟩ := completes_zero_iff.mp h
    obtain ⟨c, hc⟩ := exists_char (.inl (by omega) : byte.toNat.isValidChar)
    refine ⟨c, hc, ?_⟩
    rw [encode_one (by omega), hc, UInt8.ofNat_toNat]
  by_cases hthree : byte.toNat < 0xE0
  · obtain rfl := Option.some.inj ((ofLead?_two htwo hthree).symm.trans hlead)
    obtain ⟨b, bs, rfl, ⟨hlow, hhigh⟩, h⟩ := completes_succ_iff.mp h
    obtain ⟨rfl, hvalue⟩ := completes_zero_iff.mp h
    simp only [UInt8.reduceToNat] at hlow hhigh
    obtain ⟨c, hc⟩ := exists_char (.inl (by omega) : value.isValidChar)
    refine ⟨c, hc, ?_⟩
    rw [encode_two (by omega) (by omega), hc]
    simp only [List.cons.injEq, ← UInt8.toNat_inj, UInt8.toNat_ofNat', and_true]
    omega
  by_cases hthree' : byte.toNat < 0xF0
  · obtain ⟨low, high, hchar, hrange⟩ := ofLead?_three (by omega) hthree'
    obtain rfl := Option.some.inj (hchar.symm.trans hlead)
    obtain ⟨b₁, _, rfl, h₁, h⟩ := completes_succ_iff.mp h
    obtain ⟨b₂, _, rfl, h₂, h⟩ := completes_succ_iff.mp h
    obtain ⟨rfl, hvalue⟩ := completes_zero_iff.mp h
    -- by its range the second byte keeps out surrogates and encodings that are too long
    rw [hrange] at h₁
    simp only [UInt8.reduceToNat] at h₂
    obtain ⟨c, hc⟩ := exists_char (by rw [Nat.isValidChar]; omega : value.isValidChar)
    refine ⟨c, hc, ?_⟩
    rw [encode_three (by omega) (by omega), hc]
    simp only [List.cons.injEq, ← UInt8.toNat_inj, UInt8.toNat_ofNat', and_true]
    omega
  · obtain ⟨low, high, hchar, hrange⟩ := ofLead?_four (by omega) hfour
    obtain rfl := Option.some.inj (hchar.symm.trans hlead)
    obtain ⟨b₁, _, rfl, h₁, h⟩ := completes_succ_iff.mp h
    obtain ⟨b₂, _, rfl, h₂, h⟩ := completes_succ_iff.mp h
    obtain ⟨b₃, _, rfl, h₃, h⟩ := completes_succ_iff.mp h
    obtain ⟨rfl, hvalue⟩ := completes_zero_iff.mp h
    rw [hrange] at h₁
    simp only [UInt8.reduceToNat] at h₂ h₃
    obtain ⟨c, hc⟩ := exists_char (by rw [Nat.isValidChar]; omega : value.isValidChar)
    refine ⟨c, hc, ?_⟩
    rw [encode_four (by omega), hc]
    simp only [List.cons.injEq, ← UInt8.toNat_inj, UInt8.toNat_ofNat', and_true]
    omega

theorem completes_of_encode {c : Char} (h : String.utf8EncodeChar c = byte :: bytes) :
    ∃ char, ofLead? byte = some char ∧ char.Completes bytes c.toNat := by
  have hvalid : c.toNat < 0xD800 ∨ 0xDFFF < c.toNat ∧ c.toNat < 0x110000 := c.valid
  -- no byte of an encoding is out of range
  have htoNat {n : Nat} (hn : n < 256) : (UInt8.ofNat n).toNat = n := UInt8.toNat_ofNat_of_lt' hn
  have hbits (n : Nat) : (UInt8.ofNat (n % 64 + 0x80)).toNat = n % 64 + 0x80 := htoNat (by omega)
  by_cases hone : c.toNat < 0x80
  · rw [encode_one hone] at h
    obtain ⟨rfl, rfl⟩ := List.cons.inj h
    have hlead := htoNat (by omega : c.toNat < 256)
    exact ⟨_, ofLead?_one (by omega), completes_zero_iff.mpr ⟨rfl, hlead.symm⟩⟩
  by_cases htwo : c.toNat < 0x800
  · rw [encode_two (by omega) htwo] at h
    obtain ⟨rfl, rfl⟩ := List.cons.inj h
    have hlead := htoNat (by omega : c.toNat / 64 % 32 + 0xC0 < 256)
    have h₁ := hbits c.toNat
    refine ⟨_, ofLead?_two (by omega) (by omega), completes_succ_iff.mpr ⟨_, _, rfl, ?_,
      completes_zero_iff.mpr ⟨rfl, by omega⟩⟩⟩
    simp only [UInt8.reduceToNat]
    omega
  by_cases hthree : c.toNat < 0x10000
  · rw [encode_three (by omega) hthree] at h
    obtain ⟨rfl, rfl⟩ := List.cons.inj h
    have hlead := htoNat (by omega : c.toNat / 4096 % 16 + 0xE0 < 256)
    have h₁ := hbits (c.toNat / 64)
    have h₂ := hbits c.toNat
    obtain ⟨low, high, hchar, hrange⟩ := ofLead?_three (hlead ▸ Nat.le_add_left ..) (by omega)
    refine ⟨_, hchar, completes_succ_iff.mpr ⟨_, _, rfl, (hrange _).mpr (by omega),
      completes_succ_iff.mpr ⟨_, _, rfl, ?_, completes_zero_iff.mpr ⟨rfl, by omega⟩⟩⟩⟩
    simp only [UInt8.reduceToNat]
    omega
  · rw [encode_four (by omega)] at h
    obtain ⟨rfl, rfl⟩ := List.cons.inj h
    have hlead := htoNat (by omega : c.toNat / 262144 % 8 + 0xF0 < 256)
    have h₁ := hbits (c.toNat / 4096)
    have h₂ := hbits (c.toNat / 64)
    have h₃ := hbits c.toNat
    obtain ⟨low, high, hchar, hrange⟩ := ofLead?_four (hlead ▸ Nat.le_add_left ..) (by omega)
    refine ⟨_, hchar, completes_succ_iff.mpr ⟨_, _, rfl, (hrange _).mpr (by omega),
      completes_succ_iff.mpr ⟨_, _, rfl, ?_, completes_succ_iff.mpr ⟨_, _, rfl, ?_,
        completes_zero_iff.mpr ⟨rfl, by omega⟩⟩⟩⟩⟩
    all_goals
      simp only [UInt8.reduceToNat]
      omega

end PartialChar

/-! ## All characters -/

/-- Decodes the bytes after those that are read of a character, all of which may be read. -/
def decodeAfter (index : Nat) (char : PartialChar) (bytes : List UInt8) :
    Except Utf8Error (List Char) :=
  if char.missing = 0 then
    (decodeFrom (index + char.length) none bytes).map (Char.ofNat char.value :: ·)
  else decodeFrom index (some char) bytes

variable {index : Nat} {cs : List Char}

theorem decodeFrom_of_ofLead? (h : PartialChar.ofLead? byte = some char) :
    decodeFrom index none (byte :: bytes) = decodeAfter index char bytes := by
  rw [decodeFrom, Option.elim_none, h]
  rfl

theorem decodeFrom_of_push? {next : PartialChar} (h : char.push? byte = some next) :
    decodeFrom index (some char) (byte :: bytes) = decodeAfter index next bytes := by
  rw [decodeFrom, Option.elim_some, h]
  rfl

theorem decodeAfter_of_completes (h : char.Completes bytes value) :
    decodeAfter index char (bytes ++ rest) =
      (decodeFrom (index + char.length + bytes.length) none rest).map (Char.ofNat value :: ·) := by
  induction h with
  | done hmissing => exact if_pos hmissing
  | @push char next byte bytes value hmissing hpush hmore ih =>
    obtain ⟨-, hnext⟩ := Option.ite_none_right_eq_some.mp hpush
    have hlength : next.length = char.length + 1 := by rw [← Option.some.inj hnext]
    rw [decodeAfter, if_neg hmissing, List.cons_append, decodeFrom_of_push? hpush, ih, hlength,
      List.length_cons]
    congr 2
    omega

theorem exists_completes_of_decodeAfter (h : decodeAfter index char bytes = .ok cs) :
    ∃ tail rest value, bytes = tail ++ rest ∧ char.Completes tail value := by
  induction bytes generalizing char with
  | nil =>
    rw [decodeAfter] at h
    split at h
    · next hmissing => exact ⟨[], [], _, rfl, .done hmissing⟩
    · simp [decodeFrom] at h
  | cons byte bytes ih =>
    rw [decodeAfter] at h
    split at h
    · next hmissing => exact ⟨[], byte :: bytes, _, rfl, .done hmissing⟩
    next hmissing =>
    cases hpush : char.push? byte with
    | none => simp [decodeFrom, hpush] at h
    | some next =>
      rw [decodeFrom_of_push? hpush] at h
      obtain ⟨tail, rest, value, rfl, hcompletes⟩ := ih h
      exact ⟨byte :: tail, rest, value, rfl, .push hmissing hpush hcompletes⟩

theorem decodeFrom_encode (index : Nat) (c : Char) : ∃ index', ∀ rest,
    decodeFrom index none (String.utf8EncodeChar c ++ rest) =
      (decodeFrom index' none rest).map (c :: ·) := by
  cases hencode : String.utf8EncodeChar c with
  | nil =>
    have hlength := String.length_utf8EncodeChar c
    have hpos := c.utf8Size_pos
    simp [hencode] at hlength
    omega
  | cons byte bytes =>
    obtain ⟨char, hlead, hcompletes⟩ := PartialChar.completes_of_encode hencode
    refine ⟨index + char.length + bytes.length, fun rest => ?_⟩
    rw [List.cons_append, decodeFrom_of_ofLead? hlead, decodeAfter_of_completes hcompletes,
      Char.ofNat_toNat]

theorem decodeFrom_flatMap_encode (index : Nat) (cs : List Char) :
    decodeFrom index none (cs.flatMap String.utf8EncodeChar) = .ok cs := by
  induction cs generalizing index with
  | nil => rfl
  | cons c cs ih =>
    obtain ⟨index', hdecode⟩ := decodeFrom_encode index c
    rw [List.flatMap_cons, hdecode, ih]
    rfl

theorem exists_encode_append_of_decodeFrom (h : decodeFrom index none (byte :: bytes) = .ok cs) :
    ∃ (c : Char) (rest : List UInt8), byte :: bytes = String.utf8EncodeChar c ++ rest := by
  cases hlead : PartialChar.ofLead? byte with
  | none => simp [decodeFrom, hlead] at h
  | some char =>
    rw [decodeFrom_of_ofLead? hlead] at h
    obtain ⟨tail, rest, value, rfl, hcompletes⟩ := exists_completes_of_decodeAfter h
    obtain ⟨c, -, hencode⟩ := PartialChar.encode_of_completes hlead hcompletes
    exact ⟨c, rest, by rw [hencode, List.cons_append]⟩

theorem eq_flatMap_encode_of_decodeFrom {index : Nat} {bytes : List UInt8} {cs : List Char}
    (h : decodeFrom index none bytes = .ok cs) : bytes = cs.flatMap String.utf8EncodeChar := by
  match bytes with
  | [] => cases h; rfl
  | byte :: bytes =>
    obtain ⟨c, rest, hbytes⟩ := exists_encode_append_of_decodeFrom h
    obtain ⟨index', hdecode⟩ := decodeFrom_encode index c
    rw [hbytes, hdecode] at h
    obtain ⟨cs, hrest, rfl⟩ : ∃ cs', decodeFrom index' none rest = .ok cs' ∧ c :: cs' = cs := by
      cases hrest : decodeFrom index' none rest <;> simp_all [Except.map]
    rw [hbytes, List.flatMap_cons, eq_flatMap_encode_of_decodeFrom hrest]
termination_by bytes.length
decreasing_by
  have hlength := congrArg List.length hbytes
  have hpos := c.utf8Size_pos
  rw [List.length_append, String.length_utf8EncodeChar] at hlength
  omega

/-- Bytes decode to a text if and only if they are its encoding. -/
theorem decode_eq_ok_iff {source : String} :
    decode bytes = .ok source ↔ bytes = source.toUTF8.data.toList := by
  have hencode : source.toUTF8.data.toList = source.toList.flatMap String.utf8EncodeChar := by
    rw [String.toUTF8_eq_toByteArray, ← String.utf8Encode_toList]
    exact List.toList_data_toByteArray
  rw [hencode, decode]
  constructor
  · intro h
    cases hdecode : decodeFrom 0 none bytes with
    | error => simp [hdecode, Except.map] at h
    | ok cs =>
      rw [hdecode] at h
      obtain rfl := Except.ok.inj h
      rw [String.toList_ofList]
      exact eq_flatMap_encode_of_decodeFrom hdecode
  · rintro rfl
    rw [decodeFrom_flatMap_encode]
    exact congrArg Except.ok String.ofList_toList

end Text

end ContextFree
