import CommitGate.Proofs.Answers
import CommitGate.Staged.Copy

/-! Work on a staged copy, split into its three steps: the checkout, the work, and the removal, which
always follows the work and does no more than change the files. -/
namespace CommitGate

namespace Session

variable {s s' : Session} {fault : Fault} {α : Type}

theorem thenAlways_eq_ok {first : Action α} {second : Action Unit} {a : α}
    (h : thenAlways first second s = .ok a s') :
    ∃ t, first s = .ok a t ∧ second t = .ok () s' := by
  rw [thenAlways] at h
  split at h
  · rename_i b t hf
    split at h
    · rename_i u t' hs
      cases h
      exact ⟨t, hf, hs⟩
    · cases h
  · split at h <;> cases h

theorem thenAlways_eq_error {first : Action α} {second : Action Unit}
    (h : thenAlways first second s = .error fault s') :
    (∃ a t, first s = .ok a t ∧ second t = .error fault s') ∨
      (∃ t, first s = .error fault t ∧ second t = .ok () s') ∨
      ∃ t fault', first s = .error fault' t ∧ second t = .error fault s' := by
  rw [thenAlways] at h
  split at h
  · rename_i a t hf
    split at h
    · cases h
    · rename_i hs
      cases h
      exact .inl ⟨a, t, hf, hs⟩
  · rename_i fault' t hf
    split at h
    · rename_i hs
      cases h
      exact .inr (.inl ⟨t, hf, hs⟩)
    · rename_i hs
      cases h
      exact .inr (.inr ⟨t, fault', hf, hs⟩)

end Session

namespace Staged

open Session

def removed (copy scratch : Path) (t : FileTree) : Except FileFault FileTree :=
  match t.unlink copy.toText with
  | .ok t' => .ok (prune t' (ownDirectories copy scratch))
  | .error fault =>
    if fault.cause = .notFound then .ok (prune t (ownDirectories copy scratch)) else .error fault

theorem remove_eq (copy scratch : Path) (s : Session) :
    remove copy scratch s =
      match removed copy scratch s.tree with
      | .ok tree => .ok () { s with tree }
      | .error fault => .error (.file fault) s := by
  rw [remove, removed]
  cases h : s.tree.unlink copy.toText with
  | ok t =>
    exact bind_of_ok (changeTree_ok (by simp only [h]))
  | error fault =>
    by_cases hc : fault.cause = .notFound
    · simp only [if_pos hc]
      exact bind_of_ok (changeTree_ok (by simp only [h, if_pos hc]))
    · simp only [if_neg hc]
      exact bind_of_error (changeTree_error (by simp only [h, if_neg hc]))

theorem remove_cases (copy scratch : Path) (s : Session) :
    (∃ tree, remove copy scratch s = .ok () { s with tree }) ∨
      ∃ fault, remove copy scratch s = .error (.file fault) s := by
  rw [remove_eq]
  cases removed copy scratch s.tree with
  | ok tree => exact .inl ⟨tree, rfl⟩
  | error fault => exact .inr ⟨fault, rfl⟩

def checkoutCommand (scratch : Path) (path : Text) : Command :=
  Git.command Command.checkoutWord
    ["-f".toList, Command.placeWord ++ scratch.toText ++ [Path.slash], "--".toList, path]

theorem withCopy_eq (programs : Programs) (scratch : Path) (path : Text) (work : Path → Action α)
    (s : Session) :
    withCopy programs scratch path work s =
      match Git.meaning Command.checkoutWord
        (s.moment.ask programs (checkoutCommand scratch path)).1 with
      | .error fault => .error fault (s.asked programs (checkoutCommand scratch path))
      | .ok _ => thenAlways (work (scratch.child path)) (remove (scratch.child path) scratch)
          (s.asked programs (checkoutCommand scratch path)) := by
  have hr := Git.run_eq programs Command.checkoutWord
    ["-f".toList, Command.placeWord ++ scratch.toText ++ [Path.slash], "--".toList, path] s
  change _ = outcome (Git.meaning Command.checkoutWord
    (s.moment.ask programs (checkoutCommand scratch path)).1)
      (s.asked programs (checkoutCommand scratch path)) at hr
  rw [withCopy]
  cases hm : Git.meaning Command.checkoutWord
      (s.moment.ask programs (checkoutCommand scratch path)).1 with
  | error fault =>
    rw [hm] at hr
    exact bind_of_error (bind_of_error hr)
  | ok output =>
    rw [hm] at hr
    exact bind_of_ok (a := ()) (by rw [Git.checkout, bind_of_ok hr]; rfl)

end Staged

end CommitGate
