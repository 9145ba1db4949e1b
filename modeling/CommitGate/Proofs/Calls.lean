import CommitGate.Calls
import Mathlib.Data.List.Basic

/-! What a call is, without a scan, and that the scan for calls neither invents nor loses one. A name
without a parenthesis makes a call that ends at the first parenthesis behind its start, so calls that
overlap end at the same place. -/
namespace CommitGate.Calls

def IsCall (names : List Text) (call : Text) : Prop :=
  ∃ name ∈ alternatives names, call = name ++ ['(']

theorem mem_of_mem_alternatives {names : List Text} {name : Text} (h : name ∈ alternatives names) :
    name = [] ∨ name ∈ names := by
  rw [alternatives] at h
  split at h
  · exact .inl (List.mem_singleton.1 h)
  · exact .inr h

def CallBetween (names : List Text) (before call after : Text) : Prop :=
  IsCall names call ∧ Text.atBoundary before.getLast? (call ++ after).head?

theorem CallBetween.ne_nil {names : List Text} {before call after : Text}
    (h : CallBetween names before call after) : call ≠ [] := by
  obtain ⟨⟨name, _, rfl⟩, _⟩ := h
  simp

theorem callAt?_eq_some {names : List Text} {before text : Text} {n : Nat}
    (h : callAt? names before.getLast? text = some n) :
    ∃ call after, text = call ++ after ∧ call.length = n ∧ CallBetween names before call after := by
  rw [callAt?] at h
  split at h
  · rename_i hb
    obtain ⟨name, hf, rfl⟩ := Option.map_eq_some_iff.1 h
    have hp := List.find?_some hf
    obtain ⟨after, ha⟩ := List.isPrefixOf_iff_prefix.1 hp
    exact ⟨name ++ ['('], after, ha.symm, by simp,
      ⟨name, List.mem_of_find?_eq_some hf, rfl⟩, ha ▸ hb⟩
  · cases h

theorem callAt?_isSome {names : List Text} {before call after : Text}
    (h : CallBetween names before call after) :
    (callAt? names before.getLast? (call ++ after)).isSome := by
  obtain ⟨⟨name, hmem, rfl⟩, hb⟩ := h
  rw [callAt?, if_pos hb, Option.isSome_map, List.find?_isSome]
  exact ⟨name, hmem, List.isPrefixOf_iff_prefix.2 (List.prefix_append _ after)⟩

theorem spansFrom_sound {names : List Text} (text : Text) : ∀ {before : Text} {pending : Nat},
    ∀ span ∈ spansFrom names before.length before.getLast? pending text,
      ∃ b call after, before ++ text = b ++ call ++ after ∧
        span = ⟨b.length, b.length + call.length⟩ ∧ CallBetween names b call after := by
  induction text with
  | nil => intro before pending span h; cases pending <;> simp [spansFrom] at h
  | cons c rest ih =>
    intro before pending span h
    have later : ∀ {p : Nat}, span ∈ spansFrom names (before.length + 1) (some c) p rest →
        ∃ b call after, before ++ c :: rest = b ++ call ++ after ∧
          span = ⟨b.length, b.length + call.length⟩ ∧ CallBetween names b call after := by
      intro p hp
      have hp' : span ∈ spansFrom names (before ++ [c]).length (before ++ [c]).getLast? p rest := by
        simpa using hp
      simpa using ih span hp'
    cases pending with
    | succ p => exact later h
    | zero =>
      rw [spansFrom] at h
      split at h
      · rename_i n hn
        rcases List.mem_cons.1 h with rfl | h
        · obtain ⟨call, after, ht, rfl, hc⟩ := callAt?_eq_some hn
          exact ⟨before, call, after, by rw [ht, List.append_assoc], rfl, hc⟩
        · exact later h
      · exact later h

theorem spans_sound {names : List Text} {text : Text} {span : Span} (h : span ∈ spans names text) :
    ∃ before call after, text = before ++ call ++ after ∧
      span = ⟨before.length, before.length + call.length⟩ ∧
      CallBetween names before call after := by
  have h' : span ∈ spansFrom names ([] : Text).length ([] : Text).getLast? 0 text := h
  simpa using spansFrom_sound text span h'

theorem append_cons_inj {x : Char} {a b c d : Text} (ha : x ∉ a) (hc : x ∉ c)
    (h : a ++ x :: b = c ++ x :: d) : a = c ∧ b = d := by
  induction a generalizing c with
  | nil =>
    cases c with
    | nil => exact ⟨rfl, (List.cons.inj h).2⟩
    | cons e c => exact absurd ((List.cons.inj h).1 ▸ List.mem_cons_self) hc
  | cons e a ih =>
    cases c with
    | nil => exact absurd ((List.cons.inj h).1 ▸ List.mem_cons_self) ha
    | cons f c =>
      simp only [List.cons_append, List.cons.injEq] at h
      have := ih (fun hx => ha (.tail _ hx)) (fun hx => hc (.tail _ hx)) h.2
      exact ⟨by rw [h.1, this.1], this.2⟩

/-- The names that a call can be told by: none has a parenthesis of its own. -/
def Plain (names : List Text) : Prop := ∀ name ∈ alternatives names, '(' ∉ name

theorem IsCall.same_end {names : List Text} (hn : Plain names)
    {call after mid call' after' : Text} (h : IsCall names call) (h' : IsCall names call')
    (ht : call ++ after = mid ++ call' ++ after') (hlt : mid.length < call.length) :
    call = mid ++ call' := by
  obtain ⟨name, hmem, rfl⟩ := h
  obtain ⟨name', hmem', rfl⟩ := h'
  have hmid : mid <+: name := by
    have hm : mid <+: mid ++ (name' ++ ['('] ++ after') := List.prefix_append _ _
    have hname : name <+: mid ++ (name' ++ ['('] ++ after') := ⟨['('] ++ after, by simpa using ht⟩
    exact List.prefix_of_prefix_length_le hm hname (Nat.lt_succ_iff.1 (by simpa using hlt))
  have hp : '(' ∉ mid ++ name' := by
    rw [List.mem_append, not_or]
    exact ⟨fun hm => hn _ hmem (hmid.subset hm), hn _ hmem'⟩
  have hsplit : name ++ '(' :: after = mid ++ name' ++ '(' :: after' := by simpa using ht
  rw [(append_cons_inj (hn _ hmem) hp hsplit).1, List.append_assoc]

theorem spansFrom_complete {names : List Text} (hn : Plain names) (text : Text) :
    ∀ {before mid call after : Text} {pending : Nat}, text = mid ++ call ++ after →
      CallBetween names (before ++ mid) call after → pending ≤ mid.length →
      ∃ span ∈ spansFrom names before.length before.getLast? pending text,
        span.start ≤ before.length + mid.length ∧
        span.stop = before.length + mid.length + call.length := by
  -- The scan has passed `before` and has `mid` to go; the match before ends within `mid`.
  induction text with
  | nil =>
    intro before mid call after pending ht h _
    exact absurd (by simp_all : call = []) h.ne_nil
  | cons c rest ih =>
    intro before mid call after pending ht h hp
    have later : ∀ {mid' : Text} {p : Nat}, mid = c :: mid' → p ≤ mid'.length →
        ∃ span ∈ spansFrom names (before.length + 1) (some c) p rest,
          span.start ≤ before.length + mid.length ∧
          span.stop = before.length + mid.length + call.length := by
      rintro mid' p rfl hle
      simp only [List.cons_append, List.cons.injEq, true_and] at ht
      have h' : CallBetween names (before ++ [c] ++ mid') call after := by simpa using h
      obtain ⟨span, hs, h1, h2⟩ := ih ht h' hle
      refine ⟨span, by simpa using hs, ?_, ?_⟩
      · simp only [List.length_append, List.length_cons, List.length_nil] at h1 ⊢
        omega
      · simp only [List.length_append, List.length_cons, List.length_nil] at h2 ⊢
        omega
    cases pending with
    | succ p =>
      cases mid with
      | nil => simp at hp
      | cons d mid' =>
        obtain rfl : c = d := (List.cons.inj ht).1
        exact later rfl (by simpa using hp)
    | zero =>
      rw [spansFrom]
      cases hn' : callAt? names before.getLast? (c :: rest) with
      | none =>
        cases mid with
        | nil =>
          have := callAt?_isSome h
          simp_all
        | cons d mid' =>
          obtain rfl : c = d := (List.cons.inj ht).1
          exact later rfl (Nat.zero_le _)
      | some n =>
        obtain ⟨first, behind, hf, rfl, hcall⟩ := callAt?_eq_some hn'
        by_cases hlt : mid.length < first.length
        · -- The match found here ends where the call does.
          have he : first = mid ++ call := hcall.1.same_end hn h.1 (hf ▸ ht) hlt
          exact ⟨_, List.mem_cons_self, by simp, by simp [he]; omega⟩
        · cases mid with
          | nil => exact absurd (List.length_pos_iff.2 hcall.ne_nil) (by simpa using hlt)
          | cons d mid' =>
            obtain rfl : c = d := (List.cons.inj ht).1
            have hle : first.length - 1 ≤ mid'.length := by
              rw [List.length_cons] at hlt
              omega
            obtain ⟨span, hs, h12⟩ := later rfl hle
            exact ⟨span, .tail _ hs, h12⟩

/-- Every call ends where a match of the scan ends that starts no later. -/
theorem spans_complete {names : List Text} (hn : Plain names) {text before call after : Text}
    (ht : text = before ++ call ++ after) (h : CallBetween names before call after) :
    ∃ span ∈ spans names text, span.start ≤ before.length ∧
      span.stop = before.length + call.length := by
  have h' : CallBetween names ([] ++ before) call after := h
  simpa [spans] using spansFrom_complete hn text ht h' (Nat.zero_le _)

theorem occurIn_iff_exists (names : List Text) (text : Text) :
    occurIn names text ↔ ∃ span, span ∈ spans names text := by
  rw [occurIn, Bool.not_eq_true', List.isEmpty_eq_false_iff_exists_mem]

theorem occurIn_iff {names : List Text} (hn : Plain names) (text : Text) :
    occurIn names text ↔
      ∃ before call after, text = before ++ call ++ after ∧ CallBetween names before call after := by
  rw [occurIn_iff_exists]
  constructor
  · rintro ⟨span, hs⟩
    obtain ⟨before, call, after, ht, _, h⟩ := spans_sound hs
    exact ⟨before, call, after, ht, h⟩
  · rintro ⟨before, call, after, ht, h⟩
    obtain ⟨span, hs, _⟩ := spans_complete hn ht h
    exact ⟨span, hs⟩

def Free (names : List Text) (text : Text) : Prop :=
  ∀ before call after, text = before ++ call ++ after → ¬CallBetween names before call after

theorem occurIn_eq_false_iff {names : List Text} (hn : Plain names) (text : Text) :
    occurIn names text = false ↔ Free names text := by
  rw [← Bool.not_eq_true, occurIn_iff hn]
  constructor
  · intro h before call after ht hc
    exact h ⟨before, call, after, ht, hc⟩
  · rintro h ⟨before, call, after, ht, hc⟩
    exact h before call after ht hc

end CommitGate.Calls
