import CommitGate.Proofs.Inspection

/-! What is left in the scratch directory when git fails at a checkout. The files before it are gone with
all their directories. What the failing command itself has put there stays, since a copy is removed only
after a checkout that has succeeded. -/
namespace CommitGate

open Session

namespace Gate

open Check

variable {programs : Programs} {linter : Linter} {scratch : Path} {path : Text} {files : List Text}
  {s s' : Session} {failure : GitFailure}

theorem not_within_of_isPlain (hp : scratch.IsPlain) : ∀ d ∈ scratch.way, ¬scratch.Within d := by
  rintro d hd ⟨name, rest, _, _, rfl⟩
  have hstation : scratch.station (name :: rest) (name :: rest).length = scratch.place ++ name :: rest := by
    rw [Path.station, List.take_length]
  rw [← hstation] at hd
  exact Path.station_not_mem_way hp (by simp) le_rfl hd

theorem inspect_git_moment
    (h : inspect programs scratch (checkFor programs linter) path s = .error (.git failure) s') :
    s'.moment = (checkoutQuery scratch path s).after programs ∧
      Ran s s' [checkoutQuery scratch path s] ∧
      ¬(checkoutQuery scratch path s).Succeeded programs := by
  obtain ⟨Clean, hsettles⟩ := checkFor_settles programs linter path
  obtain ⟨hran, hfailed⟩ := inspect_git hsettles h
  refine ⟨?_, hran, hfailed⟩
  obtain ⟨u, _, hmoment, _, he⟩ := inspect_eq programs scratch (checkFor programs linter) path s
  rw [he] at h
  split at h
  · cases h
    exact hmoment
  · rename_i hm
    exact absurd (Git.succeeded_of_meaning hm) hfailed

/-- Something stands where a copy belongs once a command has ended. -/
def Leaves (programs : Programs) (copy : Path) (q : Query) : Prop :=
  (q.after programs).tree.find copy.place ≠ none

instance (programs : Programs) (copy : Path) (q : Query) : Decidable (Leaves programs copy q) :=
  inferInstanceAs (Decidable (_ ≠ _))

theorem Tidy.atMostLog_iff (h : Tidy scratch s.tree) (hgit : programs.LaysCopies scratch)
    (hclear : ClearPath path) :
    AtMostLog scratch ((checkoutQuery scratch path s).after programs).tree ↔
      ¬Leaves programs (scratch.child path) (checkoutQuery scratch path s) ∧
        ∀ d ∈ scratch.way, scratch.Within d →
          ((checkoutQuery scratch path s).after programs).tree.find d = none := by
  have hcopy := hclear.repository.leadsOn scratch
  have hpos := List.length_pos_iff.2 (WrittenPath.steps_ne_nil path)
  constructor
  · intro hlog
    refine ⟨fun hthere => ?_, fun d hd hwithin => ?_⟩
    · rw [Leaves, place_eq_station hcopy] at hthere
      exact station_ne_logKey hclear.apart hpos le_rfl
        (hlog _ (within_station hcopy.descend hpos le_rfl) hthere)
    · by_contra hthere
      obtain rfl := hlog d hwithin hthere
      have hholds := (h.checkout hgit hclear).holds
      obtain ⟨content, hfile⟩ := hholds.log
      rcases hholds.way _ hd with he | ⟨he, _⟩ <;> cases he.symm.trans hfile
  · rintro ⟨hno, hway⟩ k hk hthere
    rcases h.checkout_cases hgit hclear with htidy | hlaid
    · rcases htidy.own hk hthere with he | hon
      · exact he
      · exact absurd (hway k hon hk) hthere
    · exact absurd hlaid.there hno

def failingSecond (left : Deposit) : Dialogue.Transcript :=
  [checkedOut, .notStarted ⟨.notFound, []⟩, .notStarted ⟨.notFound, []⟩, Hook.exited 128 "" left]

theorem atMostLog_start : AtMostLog (Path.ofText Hook.scratchDirectory) Dialogue.start.tree :=
  atMostLog_of_absent (by decide +kernel)

end Gate

end CommitGate
