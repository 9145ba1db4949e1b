import CommitGate.Php.Segment

/-! Where the characters of a document go when its comments are taken out. A character is copied or
dropped by the kind of its segment, so the output is the document filtered, and a piece that no
comment touches is copied whole. -/
namespace CommitGate.Php

/-- The characters of a document, each with the kind of its segment. -/
def characters (document : Text) : List (Char × Segment.Kind) :=
  (segments document).flatMap fun s => s.source.map fun c => (c, s.kind)

def inComment : Segment.Kind → Bool
  | .blockComment | .lineComment => true
  | _ => false

def isCopied : Char × Segment.Kind → Bool
  | (c, .blockComment) => c = '\n'
  | (_, .lineComment) => false
  | _ => true

def copied (document : Text) (n : Nat) : Text :=
  (((characters document).take n).filter isCopied).map Prod.fst

/-- Where the character at `n` goes, if it is copied. -/
def copyIndex (document : Text) (n : Nat) : Nat := (copied document n).length

/-- No character from `start` to `stop` is in a comment. -/
def IsLive (document : Text) (start stop : Nat) : Prop :=
  ∀ x ∈ ((characters document).drop start).take (stop - start), inComment x.2 = false

instance (document : Text) (start stop : Nat) : Decidable (IsLive document start stop) :=
  inferInstanceAs (Decidable (∀ x ∈ _, _))

theorem isCopied_of_not_inComment {x : Char × Segment.Kind} (h : inComment x.2 = false) :
    isCopied x := by
  obtain ⟨c, kind⟩ := x
  cases kind with
  | blockComment => cases h
  | lineComment => cases h
  | markup => rfl
  | quoted => rfl
  | heredoc => rfl
  | closeTag => rfl
  | code => rfl

theorem map_fst_characters (document : Text) : (characters document).map Prod.fst = document := by
  have hs : ∀ s : Segment, (s.source.map fun c => (c, s.kind)).map Prod.fst = s.source := by
    intro s
    rw [List.map_map]
    exact List.map_id _
  simp only [characters, List.map_flatMap, hs]
  exact flatMap_source_segments document

theorem Segment.kept_eq (s : Segment) :
    s.kept = ((s.source.map fun c => (c, s.kind)).filter isCopied).map Prod.fst := by
  obtain ⟨kind, source⟩ := s
  rw [List.filter_map, List.map_map]
  by_cases hk : inComment kind
  · cases kind with
    | blockComment => exact (List.map_id _).symm
    | lineComment =>
      have none : source.filter (isCopied ∘ fun c => (c, Kind.lineComment)) = [] :=
        List.filter_eq_nil_iff.2 fun c _ => Bool.noConfusion
      rw [none]
      rfl
    | markup | quoted | heredoc | closeTag | code => cases hk
  · have all : source.filter (isCopied ∘ fun c => (c, kind)) = source :=
      List.filter_eq_self.2 fun c _ => isCopied_of_not_inComment (Bool.eq_false_iff.2 hk)
    rw [all]
    refine Eq.trans ?_ (List.map_id source).symm
    cases kind with
    | blockComment | lineComment => exact absurd rfl hk
    | markup | quoted | heredoc | closeTag | code => rfl

theorem withoutComments_eq (document : Text) :
    withoutComments document = ((characters document).filter isCopied).map Prod.fst := by
  rw [characters, List.filter_flatMap, List.map_flatMap]
  exact congrArg (List.flatMap · _) (funext Segment.kept_eq)

/-- A piece that no comment touches is copied whole, to where its start goes. -/
theorem copied_of_isLive {before middle after : Text}
    (live : IsLive (before ++ middle ++ after) before.length (before.length + middle.length)) :
    copied (before ++ middle ++ after) (before.length + middle.length) =
        copied (before ++ middle ++ after) before.length ++ middle ∧
      copied (before ++ middle ++ after) (before.length + middle.length) <+:
        withoutComments (before ++ middle ++ after) := by
  have hfst := map_fst_characters (before ++ middle ++ after)
  rw [withoutComments_eq]
  unfold copied
  rw [IsLive] at live
  generalize characters (before ++ middle ++ after) = chars at hfst live ⊢
  rw [Nat.add_sub_cancel_left] at live
  have hmiddle : ((chars.drop before.length).take middle.length).map Prod.fst = middle := by
    rw [List.map_take, List.map_drop, hfst, List.append_assoc, List.drop_left, List.take_left]
  have hall : ((chars.drop before.length).take middle.length).filter isCopied =
      (chars.drop before.length).take middle.length :=
    List.filter_eq_self.2 fun x hx => isCopied_of_not_inComment (live x hx)
  constructor
  · rw [List.take_add, List.filter_append, hall, List.map_append, hmiddle]
  · exact ((List.take_prefix _ chars).filter isCopied).map Prod.fst

end CommitGate.Php
