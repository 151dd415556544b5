import Mathlib
import Backsweep.Proofs.Diff.Activity
import Backsweep.Proofs.Diff.Catalogue
import Backsweep.Proofs.Diff.Plan
import Backsweep.Proofs.Run.Memory

/-!
# What a plan says about its steps

Plans keep every statement of the body. What a step says about its statements
is what the analysis and the catalogue say about them.

* `Lowering.InertRun`, `CallFine`, `HeaderFine`: what is known of statements kept
  as they are, of calls, and of the headers of loops;
* `stepsFine`: every step of a plan is as it should be;
* `stepsGrouped`: kept statements are in runs as long as possible;
* `Lowering.plan_fine`: a plan is fine, its loops have numbers of their own, and
  its steps are the body up to the return.
-/

namespace Backsweep

namespace Lowering

variable (l : Lowering)

/-- Whether a source carries a derivative. -/
def sourceActive : Source → Bool
  | .var v => l.isActive v
  | .field obj field => l.activity.input.isSeed obj field
  | .tape t => l.isActiveTape t

/-- An atomic statement without effect on derivatives. -/
def AtomInert : Stmt → Prop
  | .define dst _ e => l.isActive dst = true → l.exprActive e = false
  | .push t _ => l.isActiveTape t = false
  | .ret _ => False
  | _ => True

/-- Statements that are kept. An active variable is assigned to outside of blocks
only. -/
structure InertRun (run : Block) : Prop where
  atoms : ∀ a ∈ blockAtoms run, l.AtomInert a
  nested : ∀ s ∈ run, s.isControlFlow = true → ∀ dst e, Stmt.define dst false e ∈ s.atoms →
    l.isActive dst = false

structure CallFine (c : ActiveCall) : Prop where
  dst : l.isActive c.dst = true
  active : l.exprActive c.expr = true
  found : ∃ t, Target.ofExpr? c.expr = some t ∧ l.catalogue.find t = .ok (some c.node)
  arity : c.node.arity = c.argVars.length
  activeArgs : c.activeArgs = c.argVars.map l.isActiveReal
  args : c.args = (c.argVars.zip (c.node.inputsReferenced c.activeArgs)).map fun (v, r) =>
    l.checkpoint v r
  primal : c.primal = l.checkpoint c.dst (c.node.primalReferenced c.activeArgs)

/-- A header returns nothing, writes to no active tape, and what it computes from
active values is read by itself only. -/
structure HeaderFine (header : Block) (test : Var) : Prop where
  ret : ∀ vals, Stmt.ret vals ∉ blockAtoms header
  push : ∀ t val, Stmt.push t val ∈ blockAtoms header → l.isActiveTape t = false
  define : ∀ dst decl e, Stmt.define dst decl e ∈ blockAtoms header → l.isActive dst = true →
    dst = test ∨ l.escapes (blockReads header) dst = false

end Lowering

mutual

/-- A step is as the lowering makes it. -/
def Step.Fine (l : Lowering) : Step → Prop
  | .inert run => l.InertRun run
  | .call c => l.CallFine c
  | .assign dst _ src active => l.isActive dst = true ∧ active = l.sourceActive src
  | .tapeWrite t val active => l.isActiveTape t = true ∧ active = l.isActive val
  | .block (decls, steps) => decls = l.activeDecls (stepsSource steps) ∧ stepsFine l steps
  | .cond arms (decls, steps) =>
    armsFine l arms ∧ decls = l.activeDecls (stepsSource steps) ∧ stepsFine l steps
  | .loop _ header test (decls, steps) => l.HeaderFine header test ∧
      decls = l.activeDecls (stepsSource steps) ∧ stepsFine l steps

def stepsFine (l : Lowering) : List Step → Prop
  | [] => True
  | s :: ss => s.Fine l ∧ stepsFine l ss

def armsFine (l : Lowering) : List (Var × List Var × List Step) → Prop
  | [] => True
  | (_, decls, steps) :: arms =>
    decls = l.activeDecls (stepsSource steps) ∧ stepsFine l steps ∧ armsFine l arms

end

/-- The step is a run of kept statements. -/
def Step.isRun : Step → Bool
  | .inert _ => true
  | _ => false

mutual

/-- The runs in a step are not empty, and none is directly followed by another. -/
def Step.Grouped : Step → Prop
  | .inert run => run ≠ []
  | .block (_, steps) => stepsGrouped steps
  | .cond arms (_, steps) => armsGrouped arms ∧ stepsGrouped steps
  | .loop _ _ _ (_, steps) => stepsGrouped steps
  | .call _ | .assign _ _ _ _ | .tapeWrite _ _ _ => True

def stepsGrouped : List Step → Prop
  | [] => True
  | s :: ss => s.Grouped ∧ (s.isRun = true → ∀ t ∈ ss.head?, t.isRun = false) ∧ stepsGrouped ss

def armsGrouped : List (Var × List Var × List Step) → Prop
  | [] => True
  | (_, _, steps) :: arms => stepsGrouped steps ∧ armsGrouped arms

end

theorem armsGrouped_iff {arms : List (Var × List Var × List Step)} :
    armsGrouped arms ↔ ∀ arm ∈ arms, stepsGrouped arm.2.2 := by
  induction arms with
  | nil => simp [armsGrouped]
  | cons arm arms ih => simp [armsGrouped, ih]

theorem armsFine_iff {l : Lowering} {arms : List (Var × List Var × List Step)} :
    armsFine l arms ↔
      ∀ arm ∈ arms, arm.2.1 = l.activeDecls (stepsSource arm.2.2) ∧ stepsFine l arm.2.2 := by
  induction arms with
  | nil => simp [armsFine]
  | cons arm arms ih => simp [armsFine, ih, and_assoc]

namespace Lowering

variable {l : Lowering}
variable {arms : List (Var × Block)} {b : Block} {pieces : List Piece} {s s' : State} {st : Stmt}
variable {test : Var} {e : Expr} {piece : Piece} {p : Plan}

/-! ## The checks -/

theorem except_seq_eq_ok {ε : Type} {x y : Except ε Unit} :
    (x >>= fun _ => y) = .ok () ↔ x = .ok () ∧ y = .ok () := by
  rw [except_bind_eq_ok]
  constructor
  · rintro ⟨_, hx, hy⟩
    exact ⟨hx, hy⟩
  · rintro ⟨hx, hy⟩
    exact ⟨(), hx, hy⟩

theorem checkInertArms_iff :
    l.checkInertArms arms = .ok () ↔ ∀ arm ∈ arms, l.checkInertBlock arm.2 = .ok () := by
  induction arms with
  | nil => simp [checkInertArms]
  | cons arm arms ih => rw [checkInertArms, except_seq_eq_ok, ih, List.forall_mem_cons]

/-- Statements that may be kept return nothing. -/
theorem checkInertBlock_ret (h : l.checkInertBlock b = .ok ()) (vals : List Var) :
    Stmt.ret vals ∉ blockAtoms b := by
  have hatoms : ∀ a ∈ blockAtoms b, a ≠ .ret vals := by
    refine atoms_of_blocks (Q := fun b => l.checkInertBlock b = .ok ()) ?_ ?_ ?_ ?_ ?_ h
    · intro s ss hs h
      obtain ⟨h₁, h₂⟩ := except_seq_eq_ok.mp h
      refine ⟨?_, h₂⟩
      rintro rfl
      cases h₁
    · intro arms other ss h
      obtain ⟨h₁, h₂⟩ := except_seq_eq_ok.mp h
      obtain ⟨h₃, h₄⟩ := except_seq_eq_ok.mp h₁
      exact ⟨checkInertArms_iff.mp h₃, h₄, h₂⟩
    · intro header test body ss h
      obtain ⟨h₁, h₂⟩ := except_seq_eq_ok.mp h
      obtain ⟨h₃, h₄⟩ := except_seq_eq_ok.mp h₁
      exact ⟨h₃, h₄, h₂⟩
    · intro body test ss h
      cases (except_seq_eq_ok.mp h).1
    · exact fun _ _ h => except_seq_eq_ok.mp h
  exact fun ha => hatoms _ ha rfl

theorem isInertArms_iff :
    l.isInertArms arms = true ↔ ∀ arm ∈ arms, l.isInertBlock arm.2 = true := by
  induction arms with
  | nil => simp [isInertArms]
  | cons arm arms ih =>
    obtain ⟨test, body⟩ := arm
    simp [isInertArms, ih]

/-- A block has no effect on derivatives exactly if none of its atomic statements
has one. -/
theorem isInertBlock_iff : l.isInertBlock b = true ↔ ∀ a ∈ blockAtoms b, l.isInert a = true := by
  induction b using blockInduction with
  | nil => simp [isInertBlock, blockAtoms]
  | atom s ss hs ih =>
    simp [isInertBlock, blockAtoms, Stmt.atoms_of_not_controlFlow hs, ih]
  | cond arms other ss iha iho ih =>
    have harms : (∀ arm ∈ arms, l.isInertBlock arm.2 = true) ↔
        ∀ a ∈ armsAtoms arms, l.isInert a = true := by
      constructor
      · intro h a ha
        obtain ⟨arm, harm, ha⟩ := mem_armsAtoms.mp ha
        exact (iha arm harm).mp (h arm harm) a ha
      · intro h arm harm
        exact (iha arm harm).mpr fun a ha => h a (mem_armsAtoms.mpr ⟨arm, harm, ha⟩)
    simp only [isInertBlock, isInert, blockAtoms, Stmt.atoms, List.forall_mem_append,
      Bool.and_eq_true, isInertArms_iff, harms, iho, ih]
  | loop header test body ss ihh ihb ih =>
    simp only [isInertBlock, isInert, blockAtoms, Stmt.atoms, List.forall_mem_append,
      Bool.and_eq_true, ihh, ihb, ih]
  | doLoop body test ss ihb ih | block body ss ihb ih =>
    simp only [isInertBlock, isInert, blockAtoms, Stmt.atoms, List.forall_mem_append,
      Bool.and_eq_true, ihb, ih]

theorem checkHeaderArms_iff {inside : List Var} :
    l.checkHeaderArms test inside arms = .ok () ↔
      ∀ arm ∈ arms, l.checkHeaderBlock test inside arm.2 = .ok () := by
  induction arms with
  | nil => simp [checkHeaderArms]
  | cons arm arms ih => rw [checkHeaderArms, except_seq_eq_ok, ih, List.forall_mem_cons]

theorem checkHeaderBlock_atoms {inside : List Var} (h : l.checkHeaderBlock test inside b = .ok ()) :
    ∀ a ∈ blockAtoms b, l.checkHeader test inside a = .ok () := by
  refine atoms_of_blocks (Q := fun b => l.checkHeaderBlock test inside b = .ok ()) ?_ ?_ ?_ ?_ ?_ h
  · exact fun _ _ _ h => except_seq_eq_ok.mp h
  · intro arms other ss h
    obtain ⟨h₁, h₂⟩ := except_seq_eq_ok.mp h
    obtain ⟨h₃, h₄⟩ := except_seq_eq_ok.mp h₁
    exact ⟨checkHeaderArms_iff.mp h₃, h₄, h₂⟩
  · intro header t body ss h
    obtain ⟨h₁, h₂⟩ := except_seq_eq_ok.mp h
    obtain ⟨h₃, h₄⟩ := except_seq_eq_ok.mp h₁
    exact ⟨h₃, h₄, h₂⟩
  · exact fun _ _ _ h => except_seq_eq_ok.mp h
  · exact fun _ _ h => except_seq_eq_ok.mp h

theorem header_fine {header : Block} (hi : l.checkInertBlock header = .ok ())
    (hh : l.checkHeaderBlock test (blockReads header) header = .ok ()) :
    l.HeaderFine header test := by
  have hatoms := checkHeaderBlock_atoms hh
  refine ⟨checkInertBlock_ret hi, fun t val ha => ?_, fun dst decl e ha hact => ?_⟩
  · have h := hatoms _ ha
    simp only [checkHeader] at h
    split at h
    · cases h
    · rename_i ht
      simpa using ht
  · have h := hatoms _ ha
    simp only [checkHeader] at h
    split at h
    · cases h
    · rename_i hd
      by_cases hdt : dst = test
      · exact .inl hdt
      · exact .inr (by simpa [hact, hdt] using hd)

/-! ## Active declarations -/

theorem activeDecls_eq (b : Block) : l.activeDecls b = (blockDecls b).filter l.isActive := by
  rw [activeDecls, blockDecls, List.filter_filterMap]
  congr 1
  funext s
  cases s with
  | define dst decl e => cases decl <;> simp [Stmt.decl?, Option.filter]
  | _ => rfl

theorem mem_activeDecls {v : Var} :
    v ∈ l.activeDecls b ↔ v ∈ blockDecls b ∧ l.isActive v = true := by
  rw [activeDecls_eq, List.mem_filter]

/-! ## Runs of kept statements -/

theorem inertRun_nil : l.InertRun [] := ⟨by simp [blockAtoms], by simp⟩

theorem inertRun_append {a : Block} (ha : l.InertRun a) (hb : l.InertRun b) :
    l.InertRun (a ++ b) := by
  refine ⟨fun s hs => ?_, fun s hs => ?_⟩
  · rw [blockAtoms_append, List.mem_append] at hs
    rcases hs with hs | hs
    · exact ha.atoms s hs
    · exact hb.atoms s hs
  · rcases List.mem_append.mp hs with hs | hs
    · exact ha.nested s hs
    · exact hb.nested s hs

/-- A kept statement that is not control flow. -/
theorem inertRun_atom {s : Stmt} (hs : s.isControlFlow = false) (h : l.AtomInert s) :
    l.InertRun [s] := by
  refine ⟨fun a ha => ?_, fun a ha hc => ?_⟩
  · simp only [blockAtoms, Stmt.atoms_of_not_controlFlow hs, List.append_nil,
      List.mem_singleton] at ha
    rw [ha]; exact h
  · rw [List.mem_singleton.mp ha, hs] at hc; cases hc

/-- Kept control flow. -/
theorem inertRun_keep {s : Stmt} (hi : l.isInertBlock [s] = true)
    (hc : l.checkInertBlock [s] = .ok ()) : l.InertRun [s] := by
  have hatoms := isInertBlock_iff.mp hi
  have hret := checkInertBlock_ret hc
  refine ⟨fun a ha => ?_, fun a ha _ dst e hd => ?_⟩
  · have h := hatoms a ha
    cases a with
    | define dst decl e =>
      intro hact
      simp only [isInert, hact, Bool.not_true, Bool.false_or, Bool.and_eq_true,
        Bool.not_eq_true'] at h
      exact h.2
    | push t val => simpa [AtomInert, isInert] using h
    | ret vals => exact hret vals ha
    | _ => trivial
  · have hmem : Stmt.define dst false e ∈ blockAtoms [s] := by
      rw [List.mem_singleton.mp ha] at hd
      simpa [blockAtoms] using hd
    simpa [isInert] using hatoms _ hmem

def pieceSource : Piece → Block
  | .inl s => [s]
  | .inr step => step.source

def pieceLoopIds : Piece → List Int
  | .inl _ => []
  | .inr step => step.loopIds

def PieceFine (l : Lowering) : Piece → Prop
  | .inl s => l.InertRun [s]
  | .inr step => step.Fine l

def PieceGrouped : Piece → Prop
  | .inl _ => True
  | .inr step => step.isRun = false ∧ step.Grouped

theorem collect_source (run : Block) (pieces : List Piece) :
    stepsSource (collect run pieces) = run ++ pieces.flatMap pieceSource := by
  induction pieces generalizing run with
  | nil =>
    simp only [collect]
    split
    · rename_i h
      simp [stepsSource, List.isEmpty_iff.mp h]
    · simp [stepsSource, Step.source]
  | cons p pieces ih =>
    cases p with
    | inl s => simp [collect, ih, pieceSource]
    | inr step =>
      simp only [collect]
      split
      · rename_i h
        simp [stepsSource, ih, pieceSource, List.isEmpty_iff.mp h]
      · simp [stepsSource, Step.source, ih, pieceSource]

theorem collect_loopIds (run : Block) (pieces : List Piece) :
    stepsLoopIds (collect run pieces) = pieces.flatMap pieceLoopIds := by
  induction pieces generalizing run with
  | nil =>
    simp only [collect]
    split <;> simp [stepsLoopIds, Step.loopIds]
  | cons p pieces ih =>
    cases p with
    | inl s => simp [collect, ih, pieceLoopIds]
    | inr step =>
      simp only [collect]
      split <;> simp [stepsLoopIds, Step.loopIds, ih, pieceLoopIds]

theorem collect_fine {run : Block} (hrun : l.InertRun run) (h : ∀ p ∈ pieces, PieceFine l p) :
    stepsFine l (collect run pieces) := by
  induction pieces generalizing run with
  | nil =>
    simp only [collect]
    split
    · trivial
    · exact ⟨hrun, trivial⟩
  | cons p pieces ih =>
    have hp := h p (by simp)
    have hrest : ∀ p ∈ pieces, PieceFine l p := fun p hp => h p (by simp [hp])
    cases p with
    | inl s => exact ih (inertRun_append hrun hp) hrest
    | inr step =>
      simp only [collect]
      split
      · exact ⟨hp, ih inertRun_nil hrest⟩
      · exact ⟨hrun, hp, ih inertRun_nil hrest⟩

theorem collect_grouped (run : Block) (h : ∀ p ∈ pieces, PieceGrouped p) :
    stepsGrouped (collect run pieces) := by
  induction pieces generalizing run with
  | nil =>
    simp only [collect]
    split
    · trivial
    · rename_i hrun
      exact ⟨by simpa [Step.Grouped] using hrun, by simp, trivial⟩
  | cons p pieces ih =>
    have hrest : ∀ p ∈ pieces, PieceGrouped p := fun p hp => h p (by simp [hp])
    cases p with
    | inl s => exact ih (run ++ [s]) hrest
    | inr step =>
      obtain ⟨hstep, hgrouped⟩ := h (.inr step) (by simp)
      -- the current run ends at a step that is no run itself
      have hbehind : stepsGrouped (step :: collect [] pieces) :=
        ⟨hgrouped, fun hrun => absurd hrun (by simp [hstep]), ih [] hrest⟩
      simp only [collect]
      split
      · exact hbehind
      · rename_i hrun
        exact ⟨by simpa [Step.Grouped] using hrun, fun _ => by simpa using hstep, hbehind⟩

/-! ## Resolved nodes -/

/-- What was found before is what would be found again. -/
def MemoSound (l : Lowering) (s : State) : Prop :=
  ∀ t answer, s.resolver.memo.lookup t = some answer → l.catalogue.find t = .ok answer

theorem resolve_sound {node : Option Node} (hs : l.MemoSound s) (h : l.resolve e s = .ok node s') :
    l.MemoSound s' ∧ s'.loops = s.loops ∧
      ∀ n, node = some n → ∃ t, Target.ofExpr? e = some t ∧ l.catalogue.find t = .ok (some n) := by
  have hends := Resolver.Sound.resolve (r := s.resolver) hs e
  unfold resolve at h
  cases hr : Resolver.resolve l.catalogue e s.resolver with
  | error fault r => rw [hr] at h; cases h
  | ok found r =>
    rw [hr] at h hends
    cases h
    obtain ⟨hsearch, hsound⟩ := hends
    refine ⟨hsound, rfl, fun n hn => ?_⟩
    subst hn
    unfold Catalogue.search at hsearch
    cases ht : Target.ofExpr? e with
    | none => rw [ht] at hsearch; cases hsearch
    | some t => rw [ht] at hsearch; exact ⟨t, rfl, hsearch⟩

theorem activeCall_fine {dst : Var} {decl : Bool} {callee : String} {step : Step}
    (hs : l.MemoSound s) (hd : l.isActive dst = true) (he : l.exprActive e = true)
    (h : l.activeCall dst decl e callee s = .ok step s') :
    l.MemoSound s' ∧ s'.loops = s.loops ∧ ∃ c, step = .call c ∧ l.CallFine c ∧
      c.dst = dst ∧ c.decl = decl ∧ c.expr = e := by
  unfold activeCall at h
  obtain ⟨node, s₁, hres, h⟩ := bind_eq_ok.mp h
  obtain ⟨hm, hl, hfound⟩ := resolve_sound hs hres
  cases node with
  | none => cases h
  | some n =>
    dsimp only at h
    split at h
    · cases h
    · rename_i harity
      cases h
      refine ⟨hm, hl, _, rfl, ⟨hd, he, hfound n rfl, ?_, rfl, rfl, rfl⟩, rfl, rfl, rfl⟩
      simpa [ActiveCall.argVars] using harity

/-! ## Lowered statements -/

/-- The numbers of loops that are handed out between two counts, in order. -/
def loopNumbers (a b : Nat) : List Int := (List.range' a (b - a)).map fun k : Nat => -((k : Int) + 1)

theorem mem_loopNumbers {a b : Nat} {id : Int} (h : id ∈ loopNumbers a b) :
    -(b : Int) ≤ id ∧ id < -(a : Int) := by
  obtain ⟨k, hk, rfl⟩ := List.mem_map.mp h
  rw [List.mem_range'_1] at hk
  omega

theorem nodup_loopNumbers (a b : Nat) : (loopNumbers a b).Nodup := by
  refine List.Nodup.map (fun x y hxy => ?_) List.nodup_range'
  omega

/-- The numbers are those handed out between two counts of loops. -/
structure Numbered (ids : List Int) (a b : Nat) : Prop where
  le : a ≤ b
  eq : ids = loopNumbers a b

theorem numbered_nil (a : Nat) : Numbered [] a a := ⟨Nat.le_refl a, by simp [loopNumbers]⟩

theorem Numbered.append {xs ys : List Int} {a b c : Nat} (hx : Numbered xs a b)
    (hy : Numbered ys b c) : Numbered (xs ++ ys) a c := by
  have hab := hx.le
  have hbc := hy.le
  refine ⟨hab.trans hbc, ?_⟩
  have hsplit : List.range' a (c - a) = List.range' a (b - a) ++ List.range' b (c - b) := by
    have hb : b = a + (b - a) := by omega
    have hc : c - a = (b - a) + (c - b) := by omega
    rw [hc, ← List.range'_append_1, ← hb]
  rw [hx.eq, hy.eq, loopNumbers, loopNumbers, loopNumbers, hsplit, List.map_append]

theorem numbered_next (a : Nat) : Numbered [-((a : Int) + 1)] a (a + 1) :=
  ⟨Nat.le_succ a, by simp [loopNumbers]⟩

/-- What lowering makes of statements. -/
structure Lowered (l : Lowering) (s₀ s₁ : State) (b : Block) (pieces : List Piece) : Prop where
  memo : l.MemoSound s₁
  source : pieces.flatMap pieceSource = b
  fine : ∀ p ∈ pieces, PieceFine l p
  ids : Numbered (pieces.flatMap pieceLoopIds) s₀.loops s₁.loops
  grouped : ∀ p ∈ pieces, PieceGrouped p

theorem Lowered.append {s₀ s₁ s₂ : State} {a : Block} {ps qs : List Piece}
    (ha : l.Lowered s₀ s₁ a ps) (hb : l.Lowered s₁ s₂ b qs) :
    l.Lowered s₀ s₂ (a ++ b) (ps ++ qs) := by
  refine ⟨hb.memo, by simp [ha.source, hb.source], fun p hp => ?_, ?_, fun p hp => ?_⟩
  · rcases List.mem_append.mp hp with hp | hp
    · exact ha.fine p hp
    · exact hb.fine p hp
  · rw [List.flatMap_append]
    exact ha.ids.append hb.ids
  · rcases List.mem_append.mp hp with hp | hp
    · exact ha.grouped p hp
    · exact hb.grouped p hp

/-- A kept statement. -/
theorem lowered_keep (hs : l.MemoSound s) (h : l.InertRun [st]) : l.Lowered s s [st] [.inl st] :=
  ⟨hs, rfl, by simpa [PieceFine] using h, numbered_nil _, by simp [PieceGrouped]⟩

theorem lowered_step (step : Step) (hs : l.MemoSound s') (h : step.Fine l) (hl : s'.loops = s.loops)
    (hids : step.loopIds = []) (hgrouped : PieceGrouped (.inr step)) :
    l.Lowered s s' step.source [.inr step] :=
  ⟨hs, by simp [pieceSource], by simpa [PieceFine] using h, by
    simp only [List.flatMap_cons, pieceLoopIds, hids, List.flatMap_nil, List.append_nil, hl]
    exact numbered_nil _, by simpa using hgrouped⟩

theorem define_lowered {dst : Var} {decl : Bool} (hs : l.MemoSound s) (hd : l.isActive dst = true)
    (h : l.define dst decl e s = .ok piece s') : l.Lowered s s' [.define dst decl e] [piece] := by
  have call (callee : String) (h : (if l.exprActive e then
      (do return .inr (← l.activeCall dst decl e callee) : Lower Piece)
      else return .inl (.define dst decl e)) s = .ok piece s') :
      l.Lowered s s' [.define dst decl e] [piece] := by
    split at h
    · rename_i he
      obtain ⟨step, s₁, hcall, h⟩ := bind_eq_ok.mp h
      cases h
      obtain ⟨hm, hl, c, rfl, hc, rfl, rfl, rfl⟩ := activeCall_fine hs hd he hcall
      exact lowered_step (.call c) hm hc hl rfl ⟨rfl, trivial⟩
    · rename_i he
      cases h
      exact lowered_keep hs (inertRun_atom rfl fun _ => by simpa using he)
  cases e with
  | const c => cases h; exact lowered_keep hs (inertRun_atom rfl fun _ => rfl)
  | topIs t d => cases h; exact lowered_keep hs (inertRun_atom rfl fun _ => rfl)
  | copy src =>
    cases h
    exact lowered_step (.assign dst decl (.var src) (l.isActive src)) hs ⟨hd, rfl⟩ rfl rfl
      ⟨rfl, trivial⟩
  | load obj field =>
    cases h
    exact lowered_step (.assign dst decl (.field obj field) (l.activity.input.isSeed obj field)) hs
      ⟨hd, rfl⟩ rfl rfl ⟨rfl, trivial⟩
  | pop t =>
    cases h
    exact lowered_step (.assign dst decl (.tape t) (l.isActiveTape t)) hs ⟨hd, rfl⟩ rfl rfl
      ⟨rfl, trivial⟩
  | op opcode args => exact call opcode.name h
  | call callee args node => exact call callee h

theorem keep_lowered (hc : st.isControlFlow = true) (hi : l.isInert st = true) (hs : l.MemoSound s)
    (h : l.keep st s = .ok piece s') : l.Lowered s s' [st] [piece] := by
  unfold keep at h
  rw [hc] at h
  obtain ⟨_, s₁, hcheck, h⟩ := bind_eq_ok.mp h
  cases h
  cases hx : l.checkInert st with
  | error e => rw [hx] at hcheck; cases hcheck
  | ok _ =>
    rw [hx] at hcheck
    cases hcheck
    refine lowered_keep hs (inertRun_keep ?_ ?_)
    · simpa [isInertBlock] using hi
    · exact except_bind_eq_ok.mpr ⟨(), hx, rfl⟩

/-- The steps of a block inside of a statement. -/
structure SectionFine (l : Lowering) (body : Block) (steps : List Step) : Prop where
  source : stepsSource steps = body
  fine : stepsFine l steps
  grouped : stepsGrouped steps

theorem Lowered.inner {s₀ s₁ : State} (h : l.Lowered s₀ s₁ b pieces) :
    l.SectionFine b (collect [] pieces) ∧
      Numbered (stepsLoopIds (collect [] pieces)) s₀.loops s₁.loops :=
  ⟨⟨by rw [collect_source, List.nil_append, h.source], collect_fine inertRun_nil h.fine,
    collect_grouped [] h.grouped⟩, by rw [collect_loopIds]; exact h.ids⟩

theorem ofExcept_eq_ok {α : Type} {x : Except DiffError α} {a : α} :
    (ofExcept x : Lower α) s = .ok a s' ↔ x = .ok a ∧ s' = s := by
  cases x with
  | ok b => simp [ofExcept, @eq_comm _ s']
  | error e => simp [ofExcept]

theorem arms_lowered {lowered : List (Var × List Var × List Step)}
    (ih : ∀ arm ∈ arms, ∀ s s' pieces, l.MemoSound s → l.block arm.2 s = .ok pieces s' →
      l.Lowered s s' arm.2 pieces) (hs : l.MemoSound s) (h : l.arms arms s = .ok lowered s') :
    l.MemoSound s' ∧ armsSource lowered = arms ∧ armsFine l lowered ∧ armsGrouped lowered ∧
      Numbered (armsLoopIds lowered) s.loops s'.loops := by
  induction arms generalizing s lowered with
  | nil =>
    cases h
    exact ⟨hs, rfl, trivial, trivial, numbered_nil _⟩
  | cons arm arms iha =>
    obtain ⟨test, body⟩ := arm
    simp only [Lowering.arms] at h
    obtain ⟨pieces, s₁, hblock, h⟩ := bind_eq_ok.mp h
    obtain ⟨rest, s₂, harms, h⟩ := bind_eq_ok.mp h
    cases h
    have hbody := ih (test, body) (by simp) s s₁ pieces hs hblock
    obtain ⟨hsec, hids⟩ := hbody.inner
    obtain ⟨hm, hsrc, hfine, hgrouped, hrest⟩ :=
      iha (fun a ha => ih a (by simp [ha])) hbody.memo harms
    refine ⟨hm, ?_, ⟨?_, hsec.fine, hfine⟩, ⟨hsec.grouped, hgrouped⟩, hids.append hrest⟩
    · rw [armsSource, hsec.source, hsrc]
    · rw [hsec.source]

/-- A statement in front of others. -/
theorem cons_lowered {ss : Block}
    (hst : ∀ s₁ piece, l.stmt st s = .ok piece s₁ → l.Lowered s s₁ [st] [piece])
    (ih : ∀ s s' pieces, l.MemoSound s → l.block ss s = .ok pieces s' → l.Lowered s s' ss pieces)
    (h : l.block (st :: ss) s = .ok pieces s') : l.Lowered s s' (st :: ss) pieces := by
  simp only [Lowering.block] at h
  obtain ⟨_, s₀, hassign, h₁⟩ := bind_eq_ok.mp h
  obtain ⟨-, rfl⟩ := ofExcept_eq_ok.mp hassign
  obtain ⟨piece, s₁, hstmt, h₂⟩ := bind_eq_ok.mp h₁
  obtain ⟨rest, s₂, hrest, h₃⟩ := bind_eq_ok.mp h₂
  cases h₃
  have hone := hst s₁ piece hstmt
  exact hone.append (ih s₁ s' rest hone.memo hrest)

theorem atom_lowered (hst : st.isControlFlow = false) (hs : l.MemoSound s)
    (h : l.stmt st s = .ok piece s') : l.Lowered s s' [st] [piece] := by
  cases st, hst using Stmt.atomCases with
  | define dst decl e =>
    simp only [stmt] at h
    split at h
    · rename_i hi
      cases h
      refine lowered_keep hs (inertRun_atom rfl fun hact => ?_)
      simp only [isInert, hact, Bool.not_true, Bool.false_or, Bool.and_eq_true,
        Bool.not_eq_true'] at hi
      exact hi.2
    · rename_i hi
      refine define_lowered hs ?_ h
      simp only [isInert, Bool.or_eq_true, Bool.not_eq_true', not_or, Bool.not_eq_false] at hi
      exact hi.1
  | push t val =>
    simp only [stmt] at h
    split at h
    · rename_i ht
      cases h
      exact lowered_step (.tapeWrite t val (l.isActive val)) hs ⟨ht, rfl⟩ rfl rfl ⟨rfl, trivial⟩
    · rename_i ht
      cases h
      exact lowered_keep hs (inertRun_atom rfl (by simpa [AtomInert] using ht))
  | ret vals => cases h
  | _ => cases h; exact lowered_keep hs (inertRun_atom rfl trivial)

/-- **Lowering keeps every statement and explains it.** -/
theorem block_lowered (hs : l.MemoSound s) (h : l.block b s = .ok pieces s') :
    l.Lowered s s' b pieces := by
  induction b using blockInduction generalizing s s' pieces with
  | nil =>
    cases h
    exact ⟨hs, rfl, by simp, numbered_nil _, by simp⟩
  | atom st ss hst ih =>
    exact cons_lowered (fun _ _ h => atom_lowered hst hs h) (fun _ _ _ hs h => ih hs h) h
  | cond arms other ss iha iho ih =>
    refine cons_lowered (fun s₁ piece h => ?_) (fun _ _ _ hs h => ih hs h) h
    simp only [stmt] at h
    split at h
    · rename_i hi
      exact keep_lowered rfl hi hs h
    · obtain ⟨lowered, s₂, harms, h⟩ := bind_eq_ok.mp h
      obtain ⟨steps, s₃, hother, h⟩ := bind_eq_ok.mp h
      cases h
      obtain ⟨hm, hsrc, hfine, hgrouped, hids⟩ :=
        arms_lowered (fun arm harm _ _ _ hs h => iha arm harm hs h) hs harms
      obtain ⟨hsec, hids'⟩ := (iho hm hother).inner
      refine ⟨(iho hm hother).memo, ?_, ?_, ?_, ?_⟩
      · simp [pieceSource, Step.source, hsrc, hsec.source]
      · simpa [PieceFine, Step.Fine, hsec.source] using ⟨hfine, hsec.fine⟩
      · simpa [pieceLoopIds, Step.loopIds] using hids.append hids'
      · simpa [PieceGrouped, Step.isRun, Step.Grouped] using ⟨hgrouped, hsec.grouped⟩
  | loop header test body ss ihh ihb ih =>
    refine cons_lowered (fun s₁ piece h => ?_) (fun _ _ _ hs h => ih hs h) h
    simp only [stmt] at h
    split at h
    · rename_i hi
      exact keep_lowered rfl hi hs h
    · obtain ⟨_, s₂, hcheck, h₁⟩ := bind_eq_ok.mp h
      obtain ⟨hinert, rfl⟩ := ofExcept_eq_ok.mp hcheck
      obtain ⟨_, s₃, hcheck', h₂⟩ := bind_eq_ok.mp h₁
      obtain ⟨hheader, rfl⟩ := ofExcept_eq_ok.mp hcheck'
      obtain ⟨id, s₄, hid, h₃⟩ := bind_eq_ok.mp h₂
      obtain ⟨steps, s₅, hbody, h₄⟩ := bind_eq_ok.mp h₃
      cases h₄
      cases hid
      have hlow := ihb (s := { s₃ with loops := s₃.loops + 1 }) hs hbody
      obtain ⟨hsec, hids⟩ := hlow.inner
      refine ⟨hlow.memo, ?_, ?_, ?_, ?_⟩
      · simp [pieceSource, Step.source, hsec.source]
      · simpa [PieceFine, Step.Fine, hsec.source] using ⟨header_fine hinert hheader, hsec.fine⟩
      · simpa [pieceLoopIds, Step.loopIds] using (numbered_next s₃.loops).append hids
      · simpa [PieceGrouped, Step.isRun, Step.Grouped] using hsec.grouped
  | doLoop body test ss ihb ih =>
    exact cons_lowered (fun s₁ piece h => by cases h) (fun _ _ _ hs h => ih hs h) h
  | block body ss ihb ih =>
    refine cons_lowered (fun s₁ piece h => ?_) (fun _ _ _ hs h => ih hs h) h
    simp only [stmt] at h
    split at h
    · rename_i hi
      exact keep_lowered rfl hi hs h
    · obtain ⟨steps, s₂, hbody, h⟩ := bind_eq_ok.mp h
      cases h
      have hlow := ihb hs hbody
      obtain ⟨hsec, hids⟩ := hlow.inner
      refine ⟨hlow.memo, ?_, ?_, ?_, ?_⟩
      · simp [pieceSource, Step.source, hsec.source]
      · simpa [PieceFine, Step.Fine, hsec.source] using hsec.fine
      · simpa [pieceLoopIds, Step.loopIds] using hids
      · simpa [PieceGrouped, Step.isRun, Step.Grouped] using hsec.grouped

/-! ## Plans -/

theorem splitReturn_eq_ok {f : Func} {body : Block} {ret : Var}
    (h : f.splitReturn = .ok (body, ret)) : f.body = body ++ [.ret [ret]] := by
  unfold Func.splitReturn at h
  split at h
  · cases h
  · cases h
  · split at h
    · rename_i hlast
      cases h
      obtain ⟨init, hinit⟩ := List.getLast?_eq_some_iff.mp hlast
      rw [hinit, List.dropLast_concat]
    · cases h

/-- What is known of a plan. -/
structure PlanFine (l : Lowering) (p : Plan) : Prop where
  body : l.func.body = stepsSource p.body.2 ++ [.ret [p.ret]]
  input : p.input = l.activity.input
  decls : p.body.1 = l.activeDecls (stepsSource p.body.2)
  fine : stepsFine l p.body.2
  grouped : stepsGrouped p.body.2
  numbers : ∃ n, stepsLoopIds p.body.2 = loopNumbers 0 n
  ret : l.func.varTy p.ret = .real
  retActive : p.retActive = l.isActive p.ret

theorem PlanFine.ids (h : l.PlanFine p) : (stepsLoopIds p.body.2).Nodup := by
  obtain ⟨n, hn⟩ := h.numbers
  rw [hn]
  exact nodup_loopNumbers 0 n

theorem PlanFine.negative (h : l.PlanFine p) : ∀ id ∈ stepsLoopIds p.body.2, id < 0 := by
  obtain ⟨n, hn⟩ := h.numbers
  intro id hid
  rw [hn] at hid
  simpa using (mem_loopNumbers hid).2

/-- **The plan of a function explains its body.** -/
theorem plan_fine (h : l.plan {} = .ok p s) : l.PlanFine p := by
  unfold plan at h
  obtain ⟨⟨body, ret⟩, s₁, hsplit, h₁⟩ := bind_eq_ok.mp h
  obtain ⟨hbody, rfl⟩ := ofExcept_eq_ok.mp hsplit
  dsimp only at h₁
  split at h₁
  · cases h₁
  · rename_i hty
    obtain ⟨pieces, s₂, hblock, h₂⟩ := bind_eq_ok.mp h₁
    cases h₂
    have hlow := block_lowered (s := {}) (fun t a ha => by cases ha) hblock
    obtain ⟨hsec, hids⟩ := hlow.inner
    refine ⟨?_, rfl, by rw [hsec.source], hsec.fine, hsec.grouped, ⟨_, hids.eq⟩,
      by simpa using hty, rfl⟩
    dsimp only
    rw [hsec.source]
    exact splitReturn_eq_ok hbody

end Lowering

/-- Steps return nothing. -/
theorem stepsFine.no_ret {l : Lowering} {ss : List Step} (h : stepsFine l ss) (vals : List Var) :
    Stmt.ret vals ∉ blockAtoms (stepsSource ss) := by
  induction ss using stepsInduction with
  | nil => simp [stepsSource, blockAtoms]
  | leaf s ss hs ih =>
    rw [stepsSource, blockAtoms_append, List.mem_append]
    rintro (ha | ha)
    · cases s, hs using Step.leafCases with
      | inert run => exact h.1.atoms _ ha
      | _ => simp [Step.source, blockAtoms, Stmt.atoms] at ha
    · exact ih h.2 ha
  | block decls steps ss ihs ih =>
    simp only [stepsSource, Step.source, blockAtoms_append, blockAtoms, Stmt.atoms,
      List.append_nil, List.mem_append]
    rintro (ha | ha)
    · exact ihs h.1.2 ha
    · exact ih h.2 ha
  | cond arms decls steps ss iha ihs ih =>
    obtain ⟨⟨harms, -, hsteps⟩, hss⟩ := h
    rw [armsFine_iff] at harms
    simp only [stepsSource, Step.source, blockAtoms_append, blockAtoms, Stmt.atoms,
      List.append_nil, List.mem_append, mem_armsAtoms, armsSource_eq, List.mem_map]
    rintro ((⟨arm, ⟨a, ha, rfl⟩, hr⟩ | ha) | ha)
    · exact iha a ha (harms a ha).2 hr
    · exact ihs hsteps ha
    · exact ih hss ha
  | loop id header test decls steps ss ihs ih =>
    simp only [stepsSource, Step.source, blockAtoms_append, blockAtoms, Stmt.atoms,
      List.append_nil, List.mem_append]
    rintro ((ha | ha) | ha)
    · exact h.1.1.ret vals ha
    · exact ihs h.1.2.2 ha
    · exact ih h.2 ha

end Backsweep
