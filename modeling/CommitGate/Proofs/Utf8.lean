import CommitGate.Text.Utf8

/-! Bytes as the spelling of a text. The reader takes a character off the front exactly if its
spelling stands there, so a strict reader accepts what writing gives and nothing else. -/
namespace CommitGate.Utf8

variable {bytes : Bytes} {text : Text} {c : Char} {more : List (Option Char)}

theorem decodeFrom_begun (value owed low high : Nat) (bytes : Bytes) :
    decodeFrom (some ⟨value, owed, low, high⟩) bytes = some c :: more ↔
      ∃ byte rest, bytes = byte :: rest ∧ (low ≤ byte.toNat ∧ byte.toNat ≤ high) ∧
        if owed = 1 then
          Char.ofNat (value * 64 + (byte.toNat - 0x80)) = c ∧ decodeFrom none rest = more
        else decodeFrom (some ⟨value * 64 + (byte.toNat - 0x80), owed - 1, 0x80, 0xBF⟩) rest =
          some c :: more := by
  cases bytes with
  | nil => simp [decodeFrom]
  | cons byte rest =>
    simp only [decodeFrom, List.cons.injEq, and_assoc, exists_and_left, exists_eq_left']
    by_cases hin : low ≤ byte.toNat ∧ byte.toNat ≤ high
    · rw [if_pos hin, ← and_assoc, and_iff_right hin]
      split <;> simp
    · rw [if_neg hin, ← and_assoc]
      refine iff_of_false ?_ fun h => hin h.1
      cases lead byte.toNat <;> simp

theorem decodeFrom_begun_ne_nil (b : Begun) (bytes : Bytes) : decodeFrom (some b) bytes ≠ [] := by
  induction bytes generalizing b with
  | nil => simp [decodeFrom]
  | cons byte rest ih =>
    rw [decodeFrom]
    dsimp only
    split
    · split
      · exact List.cons_ne_nil _ _
      · exact ih _
    · split <;> exact List.cons_ne_nil _ _

theorem decodeFrom_eq_nil_iff : decodeFrom none bytes = [] ↔ bytes = [] := by
  cases bytes with
  | nil => simp [decodeFrom]
  | cons byte rest =>
    refine iff_of_false ?_ (List.cons_ne_nil _ _)
    rw [decodeFrom]
    split
    · exact List.cons_ne_nil _ _
    · exact decodeFrom_begun_ne_nil _ rest
    · exact List.cons_ne_nil _ _

theorem toNat_ofNat {n : Nat} (h : n < 0xD800 ∨ 0xDFFF < n ∧ n < 0x110000) :
    (Char.ofNat n).toNat = n := by
  rw [Char.ofNat, dif_pos (show n.isValidChar from h)]
  rfl

theorem byte_toNat_ofNat {n : Nat} (h : n < 0x100) : (UInt8.ofNat n).toNat = n :=
  UInt8.toNat_ofNat_of_lt' h

theorem eq_ofNat_iff {n : Nat} (h : n < 0x100) (byte : UInt8) :
    byte = UInt8.ofNat n ↔ byte.toNat = n := by
  rw [← UInt8.toNat_inj, byte_toNat_ofNat h]

inductive Spelled (n : Nat) : Bytes → Prop where
  | one {a : UInt8} : n < 0x80 → a.toNat = n → Spelled n [a]
  | two {a b : UInt8} : 0x80 ≤ n → n < 0x800 →
      a.toNat = 0xC0 + n / 64 → b.toNat = 0x80 + n % 64 → Spelled n [a, b]
  | three {a b c : UInt8} : 0x800 ≤ n → n < 0x10000 →
      a.toNat = 0xE0 + n / 4096 → b.toNat = 0x80 + n / 64 % 64 → c.toNat = 0x80 + n % 64 →
      Spelled n [a, b, c]
  | four {a b c d : UInt8} : 0x10000 ≤ n → n < 0x110000 →
      a.toNat = 0xF0 + n / 262144 → b.toNat = 0x80 + n / 4096 % 64 →
      c.toNat = 0x80 + n / 64 % 64 → d.toNat = 0x80 + n % 64 → Spelled n [a, b, c, d]

theorem spelled_iff (c : Char) (bytes : Bytes) :
    Spelled c.toNat bytes ↔ bytes = String.utf8EncodeChar c := by
  have hvalid : c.toNat < 0xD800 ∨ 0xDFFF < c.toNat ∧ c.toNat < 0x110000 := c.valid
  rw [String.utf8EncodeChar, show c.val.toNat = c.toNat from rfl]
  generalize c.toNat = n at hvalid ⊢
  constructor
  · intro h
    cases h with
    | one hn ha =>
      rw [if_pos (by omega)]
      simp (disch := omega) only [List.cons.injEq, and_true, eq_ofNat_iff]
      omega
    | two hn hn' ha hb =>
      rw [if_neg (by omega), if_pos (by omega)]
      simp (disch := omega) only [List.cons.injEq, and_true, eq_ofNat_iff]
      omega
    | three hn hn' ha hb hc =>
      rw [if_neg (by omega), if_neg (by omega), if_pos (by omega)]
      simp (disch := omega) only [List.cons.injEq, and_true, eq_ofNat_iff]
      omega
    | four hn hn' ha hb hc hd =>
      rw [if_neg (by omega), if_neg (by omega), if_neg (by omega)]
      simp (disch := omega) only [List.cons.injEq, and_true, eq_ofNat_iff]
      omega
  · rintro rfl
    have byte : ∀ {k m : Nat}, m < 0x100 → m = k → (UInt8.ofNat m).toNat = k :=
      fun hm he => (byte_toNat_ofNat hm).trans he
    by_cases h1 : n ≤ 0x7F
    · rw [if_pos h1]
      exact .one (by omega) (byte (by omega) rfl)
    rw [if_neg h1]
    by_cases h2 : n ≤ 0x7FF
    · rw [if_pos h2]
      exact .two (by omega) (by omega) (byte (by omega) (by omega)) (byte (by omega) (by omega))
    rw [if_neg h2]
    by_cases h3 : n ≤ 0xFFFF
    · rw [if_pos h3]
      exact .three (by omega) (by omega) (byte (by omega) (by omega)) (byte (by omega) (by omega))
        (byte (by omega) (by omega))
    · rw [if_neg h3]
      exact .four (by omega) (by omega) (byte (by omega) (by omega)) (byte (by omega) (by omega))
        (byte (by omega) (by omega)) (byte (by omega) (by omega))

theorem lead_cases (n : Nat) :
    (n < 0x80 ∧ lead n = .complete (Char.ofNat n)) ∨
      (0xC2 ≤ n ∧ n < 0xE0 ∧ lead n = .begins ⟨n - 0xC0, 1, 0x80, 0xBF⟩) ∨
      (0xE0 ≤ n ∧ n < 0xF0 ∧ lead n = .begins
        ⟨n - 0xE0, 2, if n = 0xE0 then 0xA0 else 0x80, if n = 0xED then 0x9F else 0xBF⟩) ∨
      (0xF0 ≤ n ∧ n < 0xF5 ∧ lead n = .begins
        ⟨n - 0xF0, 3, if n = 0xF0 then 0x90 else 0x80, if n = 0xF4 then 0x8F else 0xBF⟩) ∨
      ((0x80 ≤ n ∧ n < 0xC2 ∨ 0xF5 ≤ n) ∧ lead n = .misplaced) := by
  rw [lead]
  split
  · exact .inl ⟨by omega, rfl⟩
  split
  · exact .inr (.inr (.inr (.inr ⟨by omega, rfl⟩)))
  split
  · exact .inr (.inl ⟨by omega, by omega, rfl⟩)
  split
  · exact .inr (.inr (.inl ⟨by omega, by omega, rfl⟩))
  split
  · exact .inr (.inr (.inr (.inl ⟨by omega, by omega, rfl⟩)))
  · exact .inr (.inr (.inr (.inr ⟨by omega, rfl⟩)))

theorem decodeFrom_of_spelled {spelled : Bytes} (h : Spelled c.toNat spelled) (rest : Bytes) :
    decodeFrom none (spelled ++ rest) = some c :: decodeFrom none rest := by
  have hvalid : c.toNat < 0xD800 ∨ 0xDFFF < c.toNat ∧ c.toNat < 0x110000 := c.valid
  have hvalue : ∀ {m : Nat}, m = c.toNat → Char.ofNat m = c := by
    rintro m rfl
    exact Char.ofNat_toNat c
  cases h with
  | one hn ha =>
    rename_i a
    rcases lead_cases a.toNat with h | h | h | h | h
    · simp only [List.cons_append, List.nil_append, decodeFrom, h.2, hvalue ha]
    all_goals omega
  | two hn hn' ha hb =>
    rename_i a b
    rcases lead_cases a.toNat with h | h | h | h | h
    case inr.inl =>
      simp only [List.cons_append, List.nil_append, decodeFrom, h.2.2]
      rw [if_pos (by omega), if_pos True.intro, hvalue (by omega)]
    all_goals omega
  | three hn hn' ha hb hc =>
    rename_i a b d
    rcases lead_cases a.toNat with h | h | h | h | h
    case inr.inr.inl =>
      simp only [List.cons_append, List.nil_append, decodeFrom, h.2.2]
      rw [if_pos (by split <;> split <;> omega), if_neg (by omega), if_pos (by omega), if_pos True.intro,
        hvalue (by omega)]
    all_goals omega
  | four hn hn' ha hb hc hd =>
    rename_i a b d e
    rcases lead_cases a.toNat with h | h | h | h | h
    case inr.inr.inr.inl =>
      simp only [List.cons_append, List.nil_append, decodeFrom, h.2.2]
      rw [if_pos (by split <;> split <;> omega), if_neg (by omega), if_pos (by omega),
        if_neg (by omega), if_pos (by omega), if_pos True.intro, hvalue (by omega)]
    all_goals omega

theorem spelled_of_decodeFrom (h : decodeFrom none bytes = some c :: more) :
    ∃ spelled rest, bytes = spelled ++ rest ∧ Spelled c.toNat spelled ∧
      decodeFrom none rest = more := by
  cases bytes with
  | nil => simp [decodeFrom] at h
  | cons a tail =>
    have ha := a.toNat_lt
    rcases lead_cases a.toNat with hl | hl | hl | hl | hl
    · simp only [decodeFrom, hl.2, List.cons.injEq, Option.some.injEq] at h
      obtain ⟨rfl, rfl⟩ := h
      exact ⟨[a], tail, rfl, .one (by rw [toNat_ofNat] <;> omega) (by rw [toNat_ofNat]; omega), rfl⟩
    · simp only [decodeFrom, hl.2.2] at h
      obtain ⟨b, rest, rfl, hb, rfl, hrest⟩ := (decodeFrom_begun ..).1 h
      refine ⟨[a, b], rest, rfl, ?_, hrest⟩
      rw [toNat_ofNat (by omega)]
      exact .two (by omega) (by omega) (by omega) (by omega)
    · simp only [decodeFrom, hl.2.2] at h
      obtain ⟨b, _, rfl, hb, h⟩ := (decodeFrom_begun ..).1 h
      obtain ⟨d, rest, rfl, hd, rfl, hrest⟩ := (decodeFrom_begun ..).1 h
      have hb' : (0x80 ≤ b.toNat ∧ b.toNat ≤ 0xBF) ∧ (a.toNat = 0xE0 → 0xA0 ≤ b.toNat) ∧
          (a.toNat = 0xED → b.toNat ≤ 0x9F) := by
        split at hb <;> split at hb <;> omega
      refine ⟨[a, b, d], rest, rfl, ?_, hrest⟩
      rw [toNat_ofNat (by omega)]
      exact .three (by omega) (by omega) (by omega) (by omega) (by omega)
    · simp only [decodeFrom, hl.2.2] at h
      obtain ⟨b, _, rfl, hb, h⟩ := (decodeFrom_begun ..).1 h
      obtain ⟨d, _, rfl, hd, h⟩ := (decodeFrom_begun ..).1 h
      obtain ⟨e, rest, rfl, he, rfl, hrest⟩ := (decodeFrom_begun ..).1 h
      have hb' : (0x80 ≤ b.toNat ∧ b.toNat ≤ 0xBF) ∧ (a.toNat = 0xF0 → 0x90 ≤ b.toNat) ∧
          (a.toNat = 0xF4 → b.toNat ≤ 0x8F) := by
        split at hb <;> split at hb <;> omega
      refine ⟨[a, b, d, e], rest, rfl, ?_, hrest⟩
      rw [toNat_ofNat (by omega)]
      exact .four (by omega) (by omega) (by omega) (by omega) (by omega) (by omega)
    · simp [decodeFrom, hl.2] at h

theorem decodeFrom_eq_map_iff : decodeFrom none bytes = text.map some ↔ bytes = encode text := by
  induction text generalizing bytes with
  | nil =>
    exact decodeFrom_eq_nil_iff
  | cons c text ih =>
    rw [show encode (c :: text) = String.utf8EncodeChar c ++ encode text from rfl, List.map_cons]
    constructor
    · intro h
      obtain ⟨spelled, rest, rfl, hspelled, hrest⟩ := spelled_of_decodeFrom h
      rw [(spelled_iff c spelled).1 hspelled, ih.1 hrest]
    · rintro rfl
      rw [decodeFrom_of_spelled ((spelled_iff c _).2 rfl), ih.2 rfl]

theorem mapM_id_eq_some_iff {items : List (Option Char)} :
    items.mapM id = some text ↔ items = text.map some := by
  induction items generalizing text with
  | nil => cases text <;> simp
  | cons item items ih =>
    rw [List.mapM_cons]
    cases item with
    | none => cases text <;> simp
    | some first =>
      cases text with
      | nil => simp [Option.bind_eq_some_iff]
      | cons c text => simpa [Option.bind_eq_some_iff, ih] using and_comm

/-- A strict reader accepts the spelling of a text, as that text, and nothing else. -/
theorem decode?_eq_some_iff : decode? bytes = some text ↔ bytes = encode text :=
  mapM_id_eq_some_iff.trans decodeFrom_eq_map_iff

theorem decode?_encode (text : Text) : decode? (encode text) = some text :=
  decode?_eq_some_iff.2 rfl

theorem decodeLossy_encode (text : Text) : decodeLossy (encode text) = text := by
  rw [decodeLossy, decodeFrom_eq_map_iff.2 rfl, List.map_map]
  exact List.map_id text

theorem encode_append (a b : Text) : encode (a ++ b) = encode a ++ encode b :=
  List.flatMap_append ..

theorem encode_injective {a b : Text} (h : encode a = encode b) : a = b := by
  rw [← decodeLossy_encode a, h, decodeLossy_encode]

theorem mem_encode_iff {byte : UInt8} (h : byte.toNat < 0x80) :
    byte ∈ encode text ↔ Char.ofNat byte.toNat ∈ text := by
  have hspelled : ∀ c : Char, byte ∈ String.utf8EncodeChar c ↔ Char.ofNat byte.toNat = c := by
    intro c
    have hc := (spelled_iff c _).2 rfl
    have hiff : Char.ofNat byte.toNat = c ↔ byte.toNat = c.toNat := by
      rw [← Char.toNat_inj, toNat_ofNat (by omega)]
    rw [hiff]
    generalize String.utf8EncodeChar c = spelled at hc ⊢
    cases hc <;> simp only [List.mem_cons, List.not_mem_nil, or_false, ← UInt8.toNat_inj] <;> omega
  simp only [encode, List.mem_flatMap, hspelled, exists_eq_right']

end CommitGate.Utf8
