import CommitGate.Placement
import CommitGate.Proofs.Copy
import CommitGate.Proofs.Location

/-! What stays in a file tree. No change but a removal takes a file or a directory away, whatever it
writes; a removal takes away one file and directories in which nothing stands. -/
namespace CommitGate

open Session

namespace FileTree

def IsFile (t : FileTree) (key : Key) : Prop := ∃ content, t.find key = some (.file content)

instance (t : FileTree) (key : Key) : Decidable (t.IsFile key) :=
  match h : t.find key with
  | some (.file content) => isTrue ⟨content, h⟩
  | some .directory | none => isFalse fun ⟨_, hc⟩ => by cases h.symm.trans hc

structure Grows (t t' : FileTree) : Prop where
  files : ∀ key, t.IsFile key → t'.IsFile key
  directories : ∀ key, t.find key = some .directory → t'.find key = some .directory

variable {t t' t'' : FileTree} {key : Key} {path : Text} {content : Bytes}

theorem Grows.refl (t : FileTree) : Grows t t := ⟨fun _ h => h, fun _ h => h⟩

theorem Grows.trans (h : Grows t t') (h' : Grows t' t'') : Grows t t'' where
  files key hf := h'.files key (h.files key hf)
  directories key hd := h'.directories key (h.directories key hd)

theorem grows_of_write (h : t.write path content = .ok t') : Grows t t' := by
  obtain ⟨place, _, hfree, hfind⟩ := find_of_write h
  constructor
  · rintro key ⟨old, hold⟩
    by_cases hk : key = place
    · exact ⟨content, by rw [hfind, if_pos hk]⟩
    · exact ⟨old, by rw [hfind, if_neg hk, hold]⟩
  · intro key hd
    have hk : key ≠ place := fun hk => hfree (hk ▸ hd)
    rw [hfind, if_neg hk, hd]

/-- Whatever stands in one tree stands in another one as it is. -/
def Adds (t t' : FileTree) : Prop := ∀ key e, t.find key = some e → t'.find key = some e

theorem Adds.refl (t : FileTree) : Adds t t := fun _ _ h => h

theorem Adds.trans (h : Adds t t') (h' : Adds t' t'') : Adds t t'' :=
  fun key e he => h' key e (h key e he)

theorem Adds.grows (h : Adds t t') : Grows t t' where
  files key hf := hf.imp fun content hc => h key (.file content) hc
  directories key hd := h key .directory hd

theorem adds_of_mkdir (h : t.mkdir path = .ok t') : Adds t t' := by
  obtain ⟨place, _, hnone, hfind⟩ := find_of_mkdir h
  intro key e he
  have hk : key ≠ place := by
    rintro rfl
    rw [hnone] at he
    cases he
  rw [hfind, if_neg hk, he]

/-- The tree in which a change ends, whether it is refused or not. -/
def Change.ending : EStateM.Result FileFault FileTree Unit → FileTree
  | .ok _ t => t
  | .error _ t => t

theorem makeDirectory_adds (reuse : Bool) (path : Text) (t : FileTree) :
    Adds t (Change.ending (makeDirectory reuse path t)) := by
  rw [makeDirectory]
  split
  · rename_i h
    exact adds_of_mkdir h
  · split
    · exact Adds.refl t
    · exact Adds.refl t

theorem makeRungs_adds (reuse : Bool) (rungs : List WrittenPath.Rung) (t : FileTree) :
    Adds t (Change.ending (makeRungs reuse rungs t)) := by
  induction rungs generalizing t with
  | nil => exact Adds.refl t
  | cons rung more ih =>
    cases more with
    | nil => exact makeDirectory_adds reuse rung.path t
    | cons next above =>
      have hmore := ih t
      rw [makeRungs]
      dsimp only
      split
      · exact makeDirectory_adds reuse rung.path t
      · split
        · rename_i h
          rw [h] at hmore
          split
          · exact hmore
          · exact hmore.trans (makeDirectory_adds reuse rung.path _)
        · rename_i h
          rw [h] at hmore
          split
          · exact hmore
          · split
            · exact hmore
            · exact hmore.trans (makeDirectory_adds reuse rung.path _)

theorem single_write_grows (path : Text) (content : Bytes) (t : FileTree) :
    Grows t (Change.ending (Change.single (·.write path content) t)) := by
  rw [Change.single]
  split
  · rename_i h
    exact grows_of_write h
  · exact Grows.refl t

theorem deposit_cases (path : Text) (content : Bytes) (t : FileTree) :
    ∃ t', Adds t t' ∧ (Change.ending (deposit path content t) = t' ∨
      Change.ending (deposit path content t) =
        Change.ending (Change.single (·.write path content) t')) := by
  unfold deposit
  dsimp only
  by_cases hd : WrittenPath.directoryOf path = []
  · rw [if_pos hd]
    exact ⟨t, Adds.refl t, .inr rfl⟩
  · rw [if_neg hd]
    have hmade := makeRungs_adds true (WrittenPath.ladder (WrittenPath.directoryOf path)) t
    rw [← makeDirectories] at hmade
    cases hm : makeDirectories true (WrittenPath.directoryOf path) t with
    | ok _ t' =>
      rw [hm] at hmade
      exact ⟨t', hmade, .inr rfl⟩
    | error fault t' =>
      rw [hm] at hmade
      exact ⟨t', hmade, .inl rfl⟩

theorem deposit_grows (path : Text) (content : Bytes) (t : FileTree) :
    Grows t (Change.ending (deposit path content t)) := by
  obtain ⟨t', hadds, he | he⟩ := deposit_cases path content t
  · exact he ▸ hadds.grows
  · exact he ▸ hadds.grows.trans (single_write_grows path content t')

theorem read_eq_ok (h : t.read path = .ok content) :
    ∃ key, t.locate path = .ok key ∧ t.find key = some (.file content) := by
  rw [read] at h
  cases hl : t.locate path with
  | error cause =>
    rw [hl] at h
    cases h
  | ok key =>
    rw [hl] at h
    dsimp only at h
    split at h
    · cases h
    · cases h
    · rename_i hf
      cases h
      exact ⟨key, rfl, hf⟩

theorem read_of_find (hl : t.locate path = .ok key) (hf : t.find key = some (.file content)) :
    t.read path = .ok content := by
  simp only [read, hl, hf]

theorem write_of_locate (hl : t.locate path = .ok key) (hfree : t.find key ≠ some .directory)
    (hparent : t.find key.dropLast = some .directory) (content : Bytes) :
    ∃ t', t.write path content = .ok t' := by
  simp only [write, hl]
  rw [dif_neg hfree, dif_pos hparent]
  exact ⟨_, rfl⟩

theorem write_of_isFile (hl : t.locate path = .ok key) (hf : t.IsFile key) (content : Bytes) :
    ∃ t', t.write path content = .ok t' := by
  obtain ⟨old, hold⟩ := hf
  have hfree : t.find key ≠ some .directory := by simp [hold]
  have hne : key ≠ [] := by
    rintro rfl
    exact hfree (t.find_anchor rfl)
  have hparent : t.find key.dropLast = some .directory := by
    refine t.rooted key.dropLast (key.getLast hne) ?_
    rw [List.dropLast_concat_getLast, ← find, hold]
    simp
  exact write_of_locate hl hfree hparent content

theorem append_of_isFile (hl : t.locate path = .ok key) (hf : t.IsFile key) (content : Bytes) :
    ∃ t', t.append path content = .ok t' ∧ Grows t t' := by
  obtain ⟨old, hold⟩ := hf
  obtain ⟨t', hw⟩ := write_of_isFile hl ⟨old, hold⟩ (old ++ content)
  refine ⟨t', ?_, grows_of_write hw⟩
  rw [append, read_of_find hl hold]
  exact hw

theorem write_of_append (h : t.append path content = .ok t') :
    ∃ written, t.write path written = .ok t' := by
  rw [append] at h
  split at h
  · exact ⟨_, h⟩
  · split at h
    · exact ⟨_, h⟩
    · cases h

theorem unlink_of_isFile (hl : t.locate path = .ok key) (hf : t.IsFile key) :
    ∃ t', t.unlink path = .ok t' ∧ ∀ k, k ≠ key → t.IsFile k → t'.IsFile k := by
  obtain ⟨old, hold⟩ := hf
  have hu : ∃ t', t.unlink path = .ok t' := by
    rw [unlink, hl]
    dsimp only
    split
    · rename_i h
      rw [hold] at h
      cases h
    · rename_i h
      rw [hold] at h
      cases h
    · exact ⟨_, rfl⟩
  obtain ⟨t', ht'⟩ := hu
  obtain ⟨place, hplace, _, hfind⟩ := find_of_unlink ht'
  obtain rfl : key = place := Except.ok.inj (hl.symm.trans hplace)
  refine ⟨t', ht', ?_⟩
  rintro k hk ⟨content, hc⟩
  exact ⟨content, by rw [hfind, if_neg hk, hc]⟩

theorem find_prune (directories : List Path) (h : t.find key = some (.file content)) :
    (Staged.prune t directories).find key = some (.file content) := by
  induction directories generalizing t with
  | nil => exact h
  | cons directory above ih =>
    rw [Staged.prune]
    cases hr : t.rmdir? directory.toText with
    | none => exact h
    | some t' =>
      obtain ⟨place, _, _, hd, _, hfind⟩ := find_of_rmdir? hr
      have hk : key ≠ place := by
        rintro rfl
        rw [hd] at h
        cases h
      exact ih (by rw [hfind, if_neg hk, h])

theorem find_removed {copy scratch : Path} (h : Staged.removed copy scratch t = .ok t')
    (hne : ∀ place, t.locate copy.toText = .ok place → place ≠ key)
    (hf : t.find key = some (.file content)) : t'.find key = some (.file content) := by
  rw [Staged.removed] at h
  split at h
  · rename_i t'' hu
    cases h
    obtain ⟨place, hl, _, hfind⟩ := find_of_unlink hu
    exact find_prune _ (by rw [hfind, if_neg (hne place hl).symm, hf])
  · split at h
    · cases h
      exact find_prune _ hf
    · cases h

theorem removed_of_isFile {copy : Path} (hl : t.locate copy.toText = .ok key) (hf : t.IsFile key)
    (scratch : Path) :
    ∃ t', Staged.removed copy scratch t = .ok t' ∧ ∀ k, k ≠ key → t.IsFile k → t'.IsFile k := by
  obtain ⟨t', ht', hkeeps⟩ := unlink_of_isFile hl hf
  rw [Staged.removed, ht']
  exact ⟨_, rfl, fun k hk hfile => (hkeeps k hk hfile).imp fun _ hc => find_prune _ hc⟩

end FileTree

theorem Command.leave_grows (command : Command) (left : Deposit) (t : FileTree) :
    FileTree.Grows t (FileTree.Change.ending (command.leave left t)) := by
  unfold leave
  cases command.checkoutTarget? with
  | none => exact .refl t
  | some path =>
    cases left with
    | nothing => exact .refl t
    | file content => exact FileTree.deposit_grows path content t
    | directory => exact (FileTree.makeRungs_adds false _ t).grows

namespace Programs

theorem tree_placed_completed (now : Invocation) (c : Completion) (left : Deposit) :
    (placed now (.completed c left)).tree =
      FileTree.Change.ending (now.command.leave left now.tree) := by
  rw [placed]
  cases now.command.leave left now.tree with
  | ok _ tree => rfl
  | error fault tree => rfl

/-- Programs that take no file and no directory away when they put something in. -/
def OnlyAdd (programs : Programs) : Prop :=
  ∀ past (now : Invocation), now.tree.Grows (programs.answer past now).tree

theorem onlyAdd_placing (reply : List Invocation → Invocation → Reply) : (placing reply).OnlyAdd := by
  intro past now
  change now.tree.Grows (placed now (reply past now)).tree
  cases reply past now with
  | notStarted failure => exact .refl now.tree
  | completed c left =>
    rw [tree_placed_completed]
    exact now.command.leave_grows left now.tree

end Programs

end CommitGate
