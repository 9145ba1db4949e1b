import CommitGate.Proofs.StagedPath
import CommitGate.Proofs.Walk
import Mathlib.Data.List.Chain

/-! What a run of the gate asks for. It keeps to the files that are due, in order and as far as it goes,
and each copy is there while the linter looks at it and gone before the next file is checked out. -/
namespace CommitGate

open Session

namespace FileTree

variable {t t' tree : FileTree} {p copy scratch : Path}

theorem locate_of_adds {k : Key} (h : Adds t t') (hl : t.locate p.toText = .ok k) :
    t'.locate p.toText = .ok k := by
  obtain ⟨hway, rfl⟩ := locate_eq_ok_iff.1 hl
  exact locate_eq_ok_iff.2 ⟨fun d hd => h d _ (hway d hd), rfl⟩

theorem entry_none_of_adds (h : Adds t' t) (hnone : t.entry? p.toText = none) :
    t'.entry? p.toText = none := by
  cases he : t'.entry? p.toText with
  | none => rfl
  | some e =>
    obtain ⟨key, hl, hfind⟩ := locate_of_entry he
    rw [entry_of_locate (locate_of_adds h hl), h _ _ hfind] at hnone
    cases hnone

theorem prune_adds (directories : List Path) (t : FileTree) :
    Adds (Staged.prune t directories) t := by
  induction directories generalizing t with
  | nil => exact Adds.refl t
  | cons directory above ih =>
    rw [Staged.prune]
    cases hr : t.rmdir? directory.toText with
    | none => exact Adds.refl t
    | some t' =>
      obtain ⟨place, _, _, _, _, hfind⟩ := find_of_rmdir? hr
      refine (ih t').trans fun k e he => ?_
      rw [hfind] at he
      split at he
      · cases he
      · exact he

theorem entry_of_unlink (h : t.unlink p.toText = .ok t') : t'.entry? p.toText = none := by
  obtain ⟨key, hl, _, hfind⟩ := find_of_unlink h
  obtain ⟨_, rfl⟩ := locate_eq_ok_iff.1 hl
  cases he : t'.entry? p.toText with
  | none => rfl
  | some e =>
    obtain ⟨key, hl', hfind'⟩ := locate_of_entry he
    obtain ⟨_, rfl⟩ := locate_eq_ok_iff.1 hl'
    rw [hfind, if_pos rfl] at hfind'
    cases hfind'

theorem entry_of_unlink_notFound {fault : FileFault} (h : t.unlink p.toText = .error fault)
    (hcause : fault.cause = .notFound) : t.entry? p.toText = none := by
  rw [unlink] at h
  cases hl : t.locate p.toText with
  | error cause => simp [ entry?, hl]
  | ok key =>
    rw [hl] at h
    dsimp only at h
    split at h
    · rename_i hnone
      rw [entry_of_locate hl, hnone]
    · cases h
      cases hcause
    · cases h

theorem entry_of_removed (h : Staged.removed copy scratch t = .ok tree) :
    tree.entry? copy.toText = none := by
  rw [Staged.removed] at h
  cases hu : t.unlink copy.toText with
  | ok t' =>
    rw [hu] at h
    cases h
    exact entry_none_of_adds (prune_adds _ t') (entry_of_unlink hu)
  | error fault =>
    rw [hu] at h
    dsimp only at h
    split at h
    · rename_i hcause
      cases h
      exact entry_none_of_adds (prune_adds _ t) (entry_of_unlink_notFound hu hcause)
    · cases h

end FileTree

namespace Gate

open Check

variable {programs : Programs} {linter : Linter} {scratch : Path} {files : List Text}
  {rows : List (Text × Query)} {s s' t : Session}

def GoneBy (scratch : Path) (q q' : Query) : Prop :=
  q'.moment.tree.entry? (scratch.child (checkedPath q)).toText = none

theorem gone_concat (hchain : (rows.map Prod.snd).IsChain (GoneBy scratch))
    (hcheckout : ∀ x ∈ rows, x.2.command = Staged.checkoutCommand scratch x.1)
    (hlast : ∀ x ∈ rows.getLast?, t.tree.entry? (scratch.child x.1).toText = none) (path : Text) :
    (rows.map Prod.snd ++ [checkoutQuery scratch path t]).IsChain (GoneBy scratch) := by
  rw [List.isChain_append]
  refine ⟨hchain, .singleton _, fun q hq q' hq' => ?_⟩
  rw [List.getLast?_map] at hq
  obtain ⟨x, hx, rfl⟩ := Option.map_eq_some_iff.1 hq
  cases hq'
  rw [GoneBy, checkedPath_checkout (hcheckout x (List.mem_of_getLast? hx))]
  exact hlast x hx

theorem Walked.gone (h : Walked programs linter scratch s rows t) :
    (rows.map Prod.snd).IsChain (GoneBy scratch) ∧
      ∀ x ∈ rows.getLast?, t.tree.entry? (scratch.child x.1).toText = none := by
  induction h with
  | start => exact ⟨.nil, by simp⟩
  | next hwalk hi ih =>
    obtain ⟨_, t, tree, _, _, _, hremoved, rfl⟩ := inspect_steps hi
    constructor
    · rw [List.map_append]
      exact gone_concat ih.1 hwalk.checkout ih.2 _
    · intro x hx
      rw [List.getLast?_concat] at hx
      cases hx
      exact FileTree.entry_of_removed hremoved

/-- The commands for a file: its checkout, and if it is a PHP file whose copy can be read, the strip and
the lint of the copy. -/
def fileCommands (linter : Linter) (scratch : Path) (x : Text × Bool) : List Command :=
  Staged.checkoutCommand scratch x.1 ::
    if hasExtension phpExtensions x.1 ∧ x.2 then
      [linter.stripCommand (scratch.child x.1), linter.lintCommand (scratch.child x.1)]
    else []

def outcomeOf (programs : Programs) (scratch : Path) (x : Text × Query) : Text × Bool :=
  (x.1, ((x.2.after programs).tree.read (scratch.child x.1).toText).isOk)

theorem command_rowQueries {x : Text × Query}
    (h : x.2.command = Staged.checkoutCommand scratch x.1) :
    (rowQueries programs linter scratch x).map Query.command =
      fileCommands linter scratch (outcomeOf programs scratch x) := by
  rw [rowQueries, List.map_cons, h, fileCommands, outcomeOf, linterQueries]
  dsimp only
  split
  · rfl
  · rfl

theorem command_rows (h : ∀ x ∈ rows, x.2.command = Staged.checkoutCommand scratch x.1) :
    (rows.flatMap (rowQueries programs linter scratch)).map Query.command =
      (rows.map (outcomeOf programs scratch)).flatMap (fileCommands linter scratch) := by
  rw [List.map_flatMap, List.flatMap_map]
  exact List.flatMap_congr fun x hx => command_rowQueries (h x hx)

def Present (linter : Linter) (q : Query) : Prop :=
  ∃ copy : Path, (q.command = linter.stripCommand copy ∨ q.command = linter.lintCommand copy) ∧
    (q.moment.tree.read copy.toText).isOk

theorem present_of_rowQueries {x : Text × Query} {q : Query}
    (hx : x.2.command = Staged.checkoutCommand scratch x.1)
    (hq : q ∈ rowQueries programs linter scratch x) (hasks : AsksLinter q) : Present linter q := by
  rcases List.mem_cons.1 hq with rfl | hq
  · have hcheckout : x.2.Asks Command.checkoutWord := by
      rw [Query.Asks, hx]
      rfl
    exact absurd hasks (not_asksLinter_of_asksCheckout hcheckout)
  · rw [linterQueries] at hq
    split at hq
    · rename_i hread
      rcases List.mem_cons.1 hq with rfl | hq
      · exact ⟨scratch.child x.1, .inl rfl, hread.2⟩
      · rw [List.mem_singleton.1 hq]
        refine ⟨scratch.child x.1, .inr rfl, ?_⟩
        rw [Moment.tree_ask (linter.stripCommand_target _)]
        exact hread.2
    · cases hq

/-- The queries of a gate run keep to the files that are due, each with whether its copy can be read. -/
structure GateTrace (programs : Programs) (linter : Linter) (scratch : Path) (files : List Text)
    (copies : List (Text × Bool)) (queries : List Query) : Prop where
  asks : ∀ q ∈ queries, AsksGate q
  files : copies.map Prod.fst = agenda files
  commands : queries.map Query.command <+: copies.flatMap (fileCommands linter scratch)
  readable : ∀ x ∈ copies.zip (checkouts queries),
    x.1.2 = true ↔ Reads programs scratch (x.1.1, x.2)
  present : ∀ q ∈ queries, AsksLinter q → Present linter q
  gone : (checkouts queries).IsChain (GoneBy scratch)

theorem asks_rowQueries {x : Text × Query} {q : Query}
    (hx : x.2.command = Staged.checkoutCommand scratch x.1)
    (hq : q ∈ rowQueries programs linter scratch x) : AsksGate q := by
  rcases List.mem_cons.1 hq with rfl | hq
  · left
    rw [Query.Asks, hx]
    rfl
  · exact .inr (linterQueries_asks hq)

theorem outcome_of_mem_zip {x : (Text × Bool) × Query}
    (h : x ∈ (rows.map (outcomeOf programs scratch)).zip (rows.map Prod.snd)) :
    x.1.2 = true ↔ Reads programs scratch (x.1.1, x.2) := by
  rw [List.zip_map'] at h
  obtain ⟨y, _, rfl⟩ := List.mem_map.1 h
  exact Iff.rfl

theorem Walked.trace (h : Walked programs linter scratch s rows t)
    (hfiles : rows.map Prod.fst = agenda files) :
    GateTrace programs linter scratch files (rows.map (outcomeOf programs scratch))
      (rows.flatMap (rowQueries programs linter scratch)) where
  asks q hq := by
    obtain ⟨x, hx, hq⟩ := List.mem_flatMap.1 hq
    exact asks_rowQueries (h.checkout x hx) hq
  files := by
    rw [List.map_map]
    exact hfiles
  commands := by rw [command_rows h.checkout]
  readable x hx := by
    rw [checkouts_rows h.checkout] at hx
    exact outcome_of_mem_zip hx
  present q hq hasks := by
    obtain ⟨x, hx, hq⟩ := List.mem_flatMap.1 hq
    exact present_of_rowQueries (h.checkout x hx) hq hasks
  gone := by
    rw [checkouts_rows h.checkout]
    exact h.gone.1

theorem Walked.checkouts_stopped {path : Text} {part : List Query}
    (h : Walked programs linter scratch s rows t)
    (hpart : checkoutQuery scratch path t :: part <+:
      rowQueries programs linter scratch (path, checkoutQuery scratch path t)) :
    checkouts (rows.flatMap (rowQueries programs linter scratch) ++
        checkoutQuery scratch path t :: part) =
      (rows ++ [(path, checkoutQuery scratch path t)]).map Prod.snd := by
  have hlinter : ∀ q ∈ part, AsksLinter q := fun q hq =>
    linterQueries_asks (((List.prefix_cons_inj _).1 hpart).subset hq)
  rw [checkouts_append, checkouts_rows h.checkout, checkouts_cons scratch path t hlinter,
    List.map_append]
  rfl

theorem Walked.trace_stopped {path : Text} {rest : List Text} {part : List Query}
    (h : Walked programs linter scratch s rows t)
    (hfiles : agenda files = rows.map Prod.fst ++ path :: rest)
    (hpart : checkoutQuery scratch path t :: part <+:
      rowQueries programs linter scratch (path, checkoutQuery scratch path t)) :
    GateTrace programs linter scratch files
      ((rows ++ [(path, checkoutQuery scratch path t)]).map (outcomeOf programs scratch) ++
        rest.map fun path => (path, false))
      (rows.flatMap (rowQueries programs linter scratch) ++ checkoutQuery scratch path t :: part) := by
  have hall : ∀ x ∈ rows ++ [(path, checkoutQuery scratch path t)],
      x.2.command = Staged.checkoutCommand scratch x.1 := by
    refine List.forall_mem_append.2 ⟨h.checkout, ?_⟩
    exact List.forall_mem_singleton.2 rfl
  have hrow : ∀ q ∈ rows.flatMap (rowQueries programs linter scratch) ++
      checkoutQuery scratch path t :: part, ∃ x ∈ rows ++ [(path, checkoutQuery scratch path t)],
        q ∈ rowQueries programs linter scratch x := by
    intro q hq
    rcases List.mem_append.1 hq with hq | hq
    · obtain ⟨x, hx, hq⟩ := List.mem_flatMap.1 hq
      exact ⟨x, List.mem_append_left _ hx, hq⟩
    · exact ⟨_, List.mem_append_right _ (List.mem_singleton_self _), hpart.subset hq⟩
  have hcheckouts := h.checkouts_stopped hpart
  constructor
  · intro q hq
    obtain ⟨x, hx, hq⟩ := hrow q hq
    exact asks_rowQueries (hall x hx) hq
  · rw [hfiles, List.map_append, List.map_map, List.map_map, List.map_append, List.append_assoc]
    exact congrArg _ (congrArg _ (List.map_id rest))
  · have hlast := hpart.map Query.command
    rw [command_rowQueries (x := (path, checkoutQuery scratch path t)) rfl] at hlast
    rw [List.map_append, command_rows h.checkout, List.map_append, List.append_assoc,
      List.flatMap_append, List.map_singleton, List.singleton_append, List.flatMap_cons]
    exact (List.prefix_append_right_inj _).2 (hlast.trans (List.prefix_append _ _))
  · intro x hx
    have hlength : ((rows ++ [(path, checkoutQuery scratch path t)]).map
        (outcomeOf programs scratch)).length =
          ((rows ++ [(path, checkoutQuery scratch path t)]).map Prod.snd).length := by
      rw [List.length_map, List.length_map]
    rw [hcheckouts, ← List.append_nil (List.map Prod.snd _), List.zip_append hlength,
      List.zip_nil_right, List.append_nil] at hx
    exact outcome_of_mem_zip hx
  · intro q hq hasks
    obtain ⟨x, hx, hq⟩ := hrow q hq
    exact present_of_rowQueries (hall x hx) hq hasks
  · rw [hcheckouts, List.map_append]
    exact gone_concat h.gone.1 h.checkout h.gone.2 path

/-- A run of the gate keeps to its files as far as it goes. One that returns has gone all the way, and
one that ends in a git failure has last asked for the checkout that failed. -/
theorem gate_trace (programs : Programs) (linter : Linter) (scratch : Path) (files : List Text)
    (s : Session) :
    ∃ copies queries, Ran s (ending (run programs linter scratch files s)) queries ∧
      GateTrace programs linter scratch files copies queries ∧
      (∀ findings s', run programs linter scratch files s = .ok findings s' →
        queries.map Query.command = copies.flatMap (fileCommands linter scratch)) ∧
      ∀ failure s', run programs linter scratch files s = .error (.git failure) s' →
        ∃ q, queries.getLast? = some q ∧ q.Asks Command.checkoutWord ∧ ¬q.Succeeded programs := by
  have hrun := gate_run programs linter scratch files s
  generalize run programs linter scratch files s = r at hrun
  cases hrun with
  | unprepared _ =>
    refine ⟨(agenda files).map fun path => (path, false), [], Ran.none rfl, ?_,
      fun _ _ h => (by cases h), fun _ _ h => (by cases h)⟩
    refine ⟨by simp, ?_, List.nil_prefix, ?_, by simp, .nil⟩
    · rw [List.map_map]
      exact List.map_id _
    · intro x hx
      rw [show checkouts [] = [] from rfl, List.zip_nil_right] at hx
      cases hx
  | through hprepare hwalk hfiles =>
    refine ⟨_, _, hwalk.ran_prepared hprepare, hwalk.trace hfiles, ?_, fun _ _ h => by cases h⟩
    exact fun _ _ _ => command_rows hwalk.checkout
  | @stopped s₀ t s' rows path rest fault hprepare hwalk hfiles hstop =>
    obtain ⟨part, hran, hall, hpart⟩ := hwalk.ran_stopped hprepare hstop
    refine ⟨_, _, hall, hwalk.trace_stopped hfiles hpart, fun _ _ h => (by cases h), ?_⟩
    intro failure s'' he
    cases he
    obtain ⟨Clean, hsettles⟩ := checkFor_settles programs linter path
    obtain ⟨hran', hno⟩ := inspect_git hsettles hstop
    have honly := hran.queriesBetween_eq.symm.trans hran'.queriesBetween_eq
    rw [honly]
    exact ⟨_, List.getLast?_concat, rfl, hno⟩

end Gate

end CommitGate
