import CommitGate.Text.Line

/-! Texts under one spelling of line ends. A text without a carriage return is left as it is, any other
is changed; a character that ends no line divides a text the same way before and after. -/
namespace CommitGate.Text

variable {text : Text} {c x : Char}

theorem unifyNewlines_crlf (rest : Text) :
    unifyNewlines ('\r' :: '\n' :: rest) = '\n' :: unifyNewlines rest := by
  rw [unifyNewlines]

theorem unifyNewlines_cr {rest : Text} (h : rest.head? ≠ some '\n') :
    unifyNewlines ('\r' :: rest) = '\n' :: unifyNewlines rest := by
  rw [unifyNewlines]
  rintro more rfl
  exact h rfl

theorem unifyNewlines_cons (h : c ≠ '\r') (rest : Text) :
    unifyNewlines (c :: rest) = c :: unifyNewlines rest := by
  rw [unifyNewlines]
  · rintro _ rfl
    exact absurd rfl h
  · exact h

theorem not_mem_unifyNewlines (text : Text) : '\r' ∉ unifyNewlines text := by
  fun_induction unifyNewlines text with
  | case1 => exact List.not_mem_nil
  | case2 rest ih => simpa using ih
  | case3 rest _ ih => simpa using ih
  | case4 c rest _ hc ih => simpa [eq_comm] using ⟨hc, ih⟩

theorem not_mem_unifyNewlines_of_not_mem (hlf : x ≠ '\n') (h : x ∉ text) :
    x ∉ unifyNewlines text := by
  fun_induction unifyNewlines text with
  | case1 => exact h
  | case2 rest ih => simp_all
  | case3 rest _ ih => simp_all
  | case4 c rest _ _ ih => simp_all

theorem unifyNewlines_eq_self_iff : unifyNewlines text = text ↔ '\r' ∉ text := by
  refine ⟨fun h => h ▸ not_mem_unifyNewlines text, fun h => ?_⟩
  induction text with
  | nil => rfl
  | cons c rest ih =>
    rw [List.mem_cons, not_or] at h
    rw [unifyNewlines_cons (Ne.symm h.1), ih h.2]

theorem head?_ne_newline (rest : Text) (h : ∀ more, rest = '\n' :: more → False) :
    rest.head? ≠ some '\n' :=
  fun he => (List.head?_eq_some_iff.1 he).elim h

theorem unifyNewlines_append_cons (hlf : x ≠ '\n') (a b : Text) :
    unifyNewlines (a ++ x :: b) = unifyNewlines a ++ unifyNewlines (x :: b) := by
  fun_induction unifyNewlines a with
  | case1 => rfl
  | case2 rest ih =>
    rw [List.cons_append, List.cons_append, unifyNewlines_crlf, ih]
    rfl
  | case3 rest h ih =>
    have hhead : (rest ++ x :: b).head? ≠ some '\n' := by
      cases rest with
      | nil => simpa using hlf
      | cons d more => exact head?_ne_newline (d :: more) h
    rw [List.cons_append, unifyNewlines_cr hhead, ih]
    rfl
  | case4 d rest _ hd ih =>
    rw [List.cons_append, unifyNewlines_cons hd, ih]
    rfl

/-- Every carriage return has a line feed behind it. -/
def Paired : Text → Prop
  | [] => True
  | '\r' :: '\n' :: rest => Paired rest
  | '\r' :: _ => False
  | _ :: rest => Paired rest

theorem paired_cons (h : c ≠ '\r') {rest : Text} : Paired (c :: rest) ↔ Paired rest := by
  rw [Paired]
  · rintro _ rfl
    exact absurd rfl h
  · exact h

theorem paired_or_lone (text : Text) :
    Paired text ∨ ∃ before after, text = before ++ '\r' :: after ∧ after.head? ≠ some '\n' ∧
      Paired before := by
  fun_induction unifyNewlines text with
  | case1 => exact .inl trivial
  | case2 rest ih =>
    refine ih.imp id ?_
    rintro ⟨before, after, rfl, hlone, hpaired⟩
    exact ⟨'\r' :: '\n' :: before, after, rfl, hlone, hpaired⟩
  | case3 rest h _ =>
    exact .inr ⟨[], rest, rfl, head?_ne_newline rest h, trivial⟩
  | case4 c rest _ hc ih =>
    refine ih.imp (paired_cons hc).2 ?_
    rintro ⟨before, after, rfl, hlone, hpaired⟩
    exact ⟨c :: before, after, rfl, hlone, (paired_cons hc).2 hpaired⟩

/-- A property of paired texts that a text gets from what stands around its first lone carriage return
is one of all texts. -/
@[elab_as_elim]
theorem lone_induction {motive : Text → Prop} (paired : ∀ text, Paired text → motive text)
    (lone : ∀ before after, Paired before → after.head? ≠ some '\n' → motive after →
      motive (before ++ '\r' :: after))
    (text : Text) : motive text := by
  rcases paired_or_lone text with hpaired | ⟨before, after, he, hlone, hpaired⟩
  · exact paired text hpaired
  · have hshorter : after.length < text.length := by
      rw [he, List.length_append, List.length_cons]
      omega
    exact he ▸ lone before after hpaired hlone (lone_induction paired lone after)
termination_by text.length

end CommitGate.Text
