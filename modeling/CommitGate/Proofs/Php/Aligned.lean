import CommitGate.Proofs.Php.Copied
import CommitGate.Proofs.Php.Document
import Mathlib.Data.List.Forall2

/-! The lines of a document keep their places when its comments are taken out. What is dropped of a
comment is never a line feed, so every line loses characters of its own and none moves. -/
namespace CommitGate.Php

theorem not_mem_of_lineComment {c : Char} {rest : Text}
    (h : (codeSegment c rest).1.kind = .lineComment) : '\n' ∉ (codeSegment c rest).1.source := by
  by_cases hopens : opensLineComment c rest.head?
  · rw [codeSegment_lineComment hopens]
    exact (lineComment_of_opens hopens).one_line
  · rw [codeSegment] at h
    dsimp only at h
    split at h
    · cases h
    split at h
    · cases h
    split at h
    · cases h
    split at h
    · cases h
    · cases h

theorem segment_lineFeed {inCode : Bool} {text : Text} :
    ∀ s ∈ segmentsFrom inCode text, ∀ c ∈ s.source, c = '\n' → isCopied (c, s.kind) := by
  have whole : ∀ s : Segment, inComment s.kind = false →
      ∀ c ∈ s.source, c = '\n' → isCopied (c, s.kind) :=
    fun s hs c _ _ => isCopied_of_not_inComment (x := (c, s.kind)) hs
  fun_induction segmentsFrom inCode text with
  | case1 => simp
  | case2 c rest s ih =>
    refine List.forall_mem_cons.2 ⟨?_, ih⟩
    cases hk : s.1.kind with
    | lineComment =>
      rintro _ hc rfl
      exact absurd hc (not_mem_of_lineComment hk)
    | blockComment =>
      rintro _ _ rfl
      rfl
    | markup | quoted | heredoc | closeTag | code =>
      exact hk ▸ whole s.1 (by rw [hk]; rfl)
  | case3 _ c rest _ s ih => exact List.forall_mem_cons.2 ⟨whole _ rfl, ih⟩

theorem isCopied_lineFeed {document : Text} {x : Char × Segment.Kind}
    (hx : x ∈ characters document) (hc : x.1 = '\n') : isCopied x := by
  obtain ⟨s, hs, hmem⟩ := List.mem_flatMap.1 hx
  obtain ⟨c, hsource, rfl⟩ := List.mem_map.1 hmem
  exact segment_lineFeed s hs c hsource hc

/-- A row of characters thinned out, its line feeds apart, falls into the same pieces, thinned out. -/
theorem forall₂_splitOn_filter {α : Type} {p : Char × α → Bool} {chars : List (Char × α)}
    (h : ∀ x ∈ chars, x.1 = '\n' → p x) :
    List.Forall₂ List.Sublist (((chars.filter p).map Prod.fst).splitOn '\n')
      ((chars.map Prod.fst).splitOn '\n') := by
  induction chars with
  | nil => exact .cons (.refl _) .nil
  | cons x rest ih =>
    obtain ⟨hx, hrest⟩ := List.forall_mem_cons.1 h
    have hpieces := ih hrest
    rw [List.map_cons, List.splitOn_cons_eq_if_modifyHead]
    by_cases hc : x.1 = '\n'
    · rw [List.filter_cons_of_pos (hx hc), List.map_cons, List.splitOn_cons_eq_if_modifyHead,
        if_pos (beq_iff_eq.2 hc), if_pos (beq_iff_eq.2 hc)]
      exact .cons (.refl _) hpieces
    · rw [if_neg (by simpa using hc)]
      obtain ⟨first, more, hs⟩ := List.exists_cons_of_ne_nil
        (List.splitOn_ne_nil '\n' (rest.map Prod.fst))
      rw [hs] at hpieces ⊢
      obtain ⟨piece, pieces, hfirst, hmore, ht⟩ := List.forall₂_cons_right_iff.1 hpieces
      by_cases hp : p x
      · rw [List.filter_cons_of_pos hp, List.map_cons, List.splitOn_cons_eq_if_modifyHead,
          if_neg (by simpa using hc), ht]
        exact .cons (hfirst.cons_cons x.1) hmore
      · rw [List.filter_cons_of_neg hp, ht]
        exact .cons (hfirst.cons x.1) hmore

/-- Line by line, what is left of a document without comments is a subsequence of the document. -/
theorem lines_stay_aligned (document : Text) :
    List.Forall₂ List.Sublist ((withoutComments document).splitOn '\n')
      (document.splitOn '\n') := by
  have h := forall₂_splitOn_filter (fun x hx => isCopied_lineFeed hx : ∀ x ∈ characters document,
    x.1 = '\n' → isCopied x)
  rwa [← withoutComments_eq, map_fst_characters] at h

end CommitGate.Php
