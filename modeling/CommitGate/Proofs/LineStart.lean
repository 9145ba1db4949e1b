import CommitGate.Proofs.Lines

/-! Where the lines of a text start. The pieces between line feeds give each line its offset, and a scan
that stands somewhere in the text sees what follows there; `lineAt_iff` brings the two together. -/
namespace CommitGate

namespace Text

def terminated (pieces : List Text) : Text := pieces.flatMap (· ++ ['\n'])

/-- One of the pieces between the line feeds is `line`, and those before it take up `offset` characters with
their line feeds. -/
def LineAt (text : Text) (offset : Nat) (line : Text) : Prop :=
  ∃ front back, text.splitOn '\n' = front ++ line :: back ∧ offset = (terminated front).length

/-- At the front of a text and right behind a line feed. -/
def StartsLine (text : Text) (offset : Nat) : Prop :=
  offset = 0 ∨ ∃ k, text[k]? = some '\n' ∧ offset = k + 1

def firstLine (text : Text) : Text := text.takeWhile (· ≠ '\n')

variable {text line other : Text} {offset : Nat}

theorem StartsLine.le_length (h : StartsLine text offset) : offset ≤ text.length := by
  rcases h with rfl | ⟨k, hk, rfl⟩
  · exact Nat.zero_le _
  · exact (List.getElem?_eq_some_iff.mp hk).1

theorem StartsLine.behind_iff (hstart : StartsLine text offset) {front rest : Text}
    (h : text.drop offset = front ++ rest) :
    StartsLine text (offset + front.length) ↔ front = [] ∨ front.getLast? = some '\n' := by
  rcases List.eq_nil_or_concat front with rfl | ⟨before, c, rfl⟩
  · exact iff_of_true hstart (.inl rfl)
  · rw [List.concat_eq_append] at h ⊢
    have hlast : text[offset + before.length]? = some c := by
      rw [← List.getElem?_drop, h]
      simp
    simp only [List.getLast?_concat, List.length_append, List.length_singleton]
    constructor
    · rintro (hzero | ⟨k, hk, hplace⟩)
      · omega
      · obtain rfl : k = offset + before.length := by omega
        exact .inr (hlast.symm.trans hk)
    · rintro (hnil | hfeed)
      · simp at hnil
      · exact .inr ⟨_, hlast.trans hfeed, rfl⟩

theorem terminated_eq {pieces : List Text} (h : pieces ≠ []) :
    terminated pieces = unlines pieces ++ ['\n'] := by
  induction pieces with
  | nil => exact absurd rfl h
  | cons piece more ih =>
    cases more with
    | nil => simp [terminated, unlines]
    | cons next more =>
      have hmore := ih (List.cons_ne_nil next more)
      rw [terminated, List.flatMap_cons, ← terminated, hmore, unlines, unlines,
        List.intercalate_cons_cons]
      simp

theorem terminated_splitOn (text : Text) : terminated (text.splitOn '\n') = text ++ ['\n'] := by
  rw [terminated_eq (List.splitOn_ne_nil _ _), unlines, List.intercalate_splitOn]

theorem terminated_ends (pieces : List Text) :
    terminated pieces = [] ∨ (terminated pieces).getLast? = some '\n' := by
  rcases List.eq_nil_or_concat pieces with rfl | ⟨before, last, rfl⟩
  · exact .inl rfl
  · right
    rw [terminated, List.concat_eq_append, List.flatMap_append, List.flatMap_singleton,
      ← List.append_assoc, List.getLast?_concat]

theorem LineAt.split (h : LineAt text offset line) :
    ∃ front back, text ++ ['\n'] = terminated front ++ (line ++ '\n' :: back) ∧
      (terminated front).length = offset := by
  obtain ⟨front, back, hsplit, rfl⟩ := h
  refine ⟨front, terminated back, ?_, rfl⟩
  rw [← terminated_splitOn, hsplit]
  simp [terminated]

theorem LineAt.not_mem (h : LineAt text offset line) : '\n' ∉ line := by
  obtain ⟨front, back, hsplit, _⟩ := h
  have hmem : line ∈ text.splitOn '\n' := by
    rw [hsplit]
    exact List.mem_append_right _ List.mem_cons_self
  exact not_mem_of_mem_splitOn hmem

theorem LineAt.startsLine (h : LineAt text offset line) : StartsLine text offset := by
  obtain ⟨front, back, htext, rfl⟩ := h.split
  have hterminated : StartsLine (text ++ ['\n']) (terminated front).length := by
    have hstart : StartsLine (text ++ ['\n']) 0 := .inl rfl
    have hends := (hstart.behind_iff htext).mpr (terminated_ends front)
    rwa [Nat.zero_add] at hends
  rcases hterminated with hzero | ⟨k, hk, hplace⟩
  · exact .inl hzero
  · -- The line feed behind the text comes later than the one before the line.
    have hinside : k < text.length := by
      have hlength := congrArg List.length htext
      simp only [List.length_append, List.length_cons, List.length_nil] at hlength
      omega
    rw [List.getElem?_append_left hinside] at hk
    exact .inr ⟨k, hk, hplace⟩

theorem firstLine_prefix (text : Text) : firstLine text <+: text := List.takeWhile_prefix _

theorem firstLine_append (h : '\n' ∉ line) (rest : Text) :
    firstLine (line ++ rest) = line ++ firstLine rest := by
  apply List.takeWhile_append_of_pos
  intro c hc
  exact decide_eq_true (ne_of_mem_of_not_mem hc h)

theorem firstLine_append_newline (text : Text) : firstLine (text ++ ['\n']) = firstLine text := by
  rw [firstLine, List.takeWhile_append]
  split
  · rename_i hall
    rw [firstLine, (List.takeWhile_prefix _).eq_of_length hall]
    simp
  · rfl

theorem LineAt.eq_firstLine (h : LineAt text offset line) : line = firstLine (text.drop offset) := by
  obtain ⟨front, back, htext, hoffset⟩ := h.split
  have hdrop : text.drop offset ++ ['\n'] = line ++ '\n' :: back := by
    rw [← List.drop_append_of_le_length h.startsLine.le_length, htext, List.drop_left' hoffset]
  rw [← firstLine_append_newline, hdrop, firstLine_append h.not_mem]
  simp [firstLine]

theorem StartsLine.exists_lineAt (h : StartsLine text offset) : ∃ line, LineAt text offset line := by
  rcases h with rfl | ⟨k, hk, rfl⟩
  · obtain ⟨line, back, hsplit⟩ := List.exists_cons_of_ne_nil (List.splitOn_ne_nil '\n' text)
    exact ⟨line, [], back, hsplit, rfl⟩
  · obtain ⟨hlt, hget⟩ := List.getElem?_eq_some_iff.mp hk
    have htext : text = text.take k ++ '\n' :: text.drop (k + 1) := by
      rw [← hget, ← List.drop_eq_getElem_cons hlt, List.take_append_drop]
    have hpieces := splitOn_append_newline (text.take k) (text.drop (k + 1))
    obtain ⟨line, back, hsplit⟩ :=
      List.exists_cons_of_ne_nil (List.splitOn_ne_nil '\n' (text.drop (k + 1)))
    rw [← htext, hsplit] at hpieces
    refine ⟨line, (text.take k).splitOn '\n', back, hpieces, ?_⟩
    rw [terminated_splitOn, List.length_append,
      List.length_take_of_le (Nat.le_of_lt hlt)]
    rfl

theorem lineAt_iff :
    LineAt text offset line ↔ StartsLine text offset ∧ line = firstLine (text.drop offset) := by
  constructor
  · intro h
    exact ⟨h.startsLine, h.eq_firstLine⟩
  · rintro ⟨hstart, rfl⟩
    obtain ⟨line, hline⟩ := hstart.exists_lineAt
    rwa [← hline.eq_firstLine]

theorem LineAt.unique (h : LineAt text offset line) (hother : LineAt text offset other) :
    line = other := by
  rw [h.eq_firstLine, hother.eq_firstLine]

theorem LineAt.prefix_drop (h : LineAt text offset line) : line <+: text.drop offset := by
  rw [h.eq_firstLine]
  exact firstLine_prefix _

theorem LineAt.ends_before {next : Nat} (h : LineAt text offset line) (hnext : StartsLine text next)
    (hlt : offset < next) : offset + line.length < next := by
  obtain rfl | ⟨k, hk, rfl⟩ := hnext
  · exact absurd hlt (Nat.not_lt_zero _)
  · by_contra hover
    have hinside : k - offset < line.length := by omega
    obtain ⟨after, hafter⟩ := h.prefix_drop
    have hfeed : (line ++ after)[k - offset]? = some '\n' := by
      rw [hafter, List.getElem?_drop, Nat.add_sub_cancel' (Nat.le_of_lt_succ hlt), hk]
    rw [List.getElem?_append_left hinside] at hfeed
    exact h.not_mem (List.mem_of_getElem? hfeed)

theorem LineAt.le_of_le {next i j : Nat} (h : LineAt text offset line) (hnext : LineAt text next other)
    (hj : j ≤ other.length) (hle : offset + i ≤ next + j) : offset ≤ next := by
  by_contra hlt
  have := hnext.ends_before h.startsLine (Nat.lt_of_not_le hlt)
  omega

end Text

end CommitGate
