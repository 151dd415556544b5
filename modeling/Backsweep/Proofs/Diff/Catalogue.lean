import Mathlib
import Backsweep.Diff.Builtin
import Backsweep.Proofs.Diff.Activity
import Backsweep.Proofs.Run.Memory

/-!
# What catalogues hold

However a catalogue was built, its nodes keep the promises their rules were
checked for.

* `Rule.isStraight`, `Node.isSound`: the promises;
* `Catalogue.Grouped`: rules that are sorted by the nodes they are named for;
* `Catalogue.Survives`: properties that registrations keep, and so all additions;
* `Catalogue.IsBuilt`: the catalogues that there are;
* `Catalogue.IsBuilt.sound`: their nodes are sound;
* `Resolver.Sound`: what resolvers remember.
-/

namespace Backsweep

variable {rules : List (Nat × Func)} {n : Node}

/-- Whether the rule is a list of definitions and a return of its result. -/
def Rule.isStraight (r : Rule) : Bool :=
  match r.func.body.getLast? with
  | some (.ret [v]) => v = r.result && r.func.body.dropLast.all Rule.isStep
  | _ => false

theorem Rule.body_of_isStraight {r : Rule} (h : r.isStraight = true) :
    ∃ steps, r.func.body = steps ++ [.ret [r.result]] ∧ ∀ s ∈ steps, Rule.isStep s = true := by
  unfold Rule.isStraight at h
  split at h
  · rename_i hlast
    obtain ⟨steps, hsteps⟩ := List.getLast?_eq_some_iff.mp hlast
    rw [hsteps, List.dropLast_concat] at h
    simp only [Bool.and_eq_true, decide_eq_true_eq, List.all_eq_true] at h
    exact ⟨steps, by rw [hsteps, h.1], h.2⟩
  · cases h

/-- Whether a node has a straight rule for every input, and sums contributions. -/
def Node.isSound (n : Node) : Bool :=
  n.pushback == .fadd && n.rules.length == n.arity && n.rules.all Rule.isStraight

theorem Rule.ofFunc_straight {f : Func} {r : Rule} (h : Rule.ofFunc f = .ok r) :
    r.isStraight = true := by
  unfold Rule.ofFunc at h
  dsimp only at h
  split at h
  · cases h
  split at h
  swap
  · cases h
  split at h
  · cases h
  split at h
  · cases h
  split at h
  swap
  · cases h
  rename_i hlast
  split at h
  · cases h
  rename_i hall
  cases h
  simp only [Rule.isStraight, hlast]
  simpa using hall

namespace Catalogue

/-- A list of rules is checked from the front. -/
theorem rulesFrom_cons {arity input : Nat} {rule : Nat × Func} {checked : List Rule}
    (h : rulesFrom arity input (rule :: rules) = .ok checked) :
    ∃ r rs, checked = r :: rs ∧ rule.1 = input ∧ rule.2.params.length = arity + 2 ∧
      Rule.ofFunc rule.2 = .ok r ∧ rulesFrom arity (input + 1) rules = .ok rs := by
  unfold rulesFrom at h
  dsimp only at h
  split at h
  · cases h
  rename_i hinput
  split at h
  · cases h
  rename_i hcount
  obtain ⟨r, hr, h₁⟩ := except_bind_eq_ok.mp h
  obtain ⟨rs, hrs, h₂⟩ := except_bind_eq_ok.mp h₁
  cases h₂
  exact ⟨r, rs, rfl, not_ne_iff.mp hinput, not_ne_iff.mp hcount, hr, hrs⟩

theorem rulesFrom_straight {arity input : Nat} {checked : List Rule}
    (h : rulesFrom arity input rules = .ok checked) : ∀ r ∈ checked, r.isStraight = true := by
  induction rules generalizing input checked with
  | nil =>
    cases h
    simp
  | cons rule rules ih =>
    obtain ⟨r, rs, rfl, -, -, hr, hrs⟩ := rulesFrom_cons h
    intro r' hr'
    rcases List.mem_cons.mp hr' with rfl | hr'
    · exact Rule.ofFunc_straight hr
    · exact ih hrs r' hr'

/-- A node has as many inputs as there are rules. -/
theorem nodeOf_eq_ok {qualified : String} (h : nodeOf qualified rules = .ok n) :
    ∃ checked, rulesFrom checked.length 0 rules = .ok checked ∧
      n = { name := nodeName qualified, qualified, arity := checked.length, rules := checked } := by
  have counted {checked : List Rule} (arity : Nat) (hchecked : rulesFrom arity 0 rules = .ok checked)
      (h : (if checked.length ≠ arity then throw (.missingRule checked.length) else
        pure { name := nodeName qualified, qualified, arity, rules := checked } :
          Except RuleFault Node) = .ok n) :
      rulesFrom checked.length 0 rules = .ok checked ∧
        n = { name := nodeName qualified, qualified, arity := checked.length, rules := checked } := by
    split at h
    · cases h
    rename_i hcount
    obtain rfl := not_ne_iff.mp hcount
    exact ⟨hchecked, (Except.ok.inj h).symm⟩
  unfold nodeOf at h
  obtain ⟨checked, hchecked, h₁⟩ := except_bind_eq_ok.mp h
  exact ⟨checked, counted _ hchecked h₁⟩

theorem nodeOf_sound {qualified : String} (h : nodeOf qualified rules = .ok n) :
    n.isSound = true := by
  obtain ⟨checked, hchecked, rfl⟩ := nodeOf_eq_ok h
  simp only [Node.isSound, Bool.and_eq_true, beq_iff_eq, List.all_eq_true]
  exact ⟨⟨trivial, trivial⟩, rulesFrom_straight hchecked⟩

/-! ## Groups -/

/-- Every group has rules, which are named for it. -/
def Grouped (groups : List Group) : Prop :=
  ∀ g ∈ groups, g.2 ≠ [] ∧ ∀ rule ∈ g.2, splitRuleName rule.2.name = some (g.1, rule.1)

theorem mem_insertRule {rule r : Nat × Func} :
    r ∈ insertRule rule rules ↔ r = rule ∨ r ∈ rules := by
  induction rules with
  | nil => simp [insertRule]
  | cons r' rules ih =>
    unfold insertRule
    split
    · simp
    · simp only [List.mem_cons, ih]
      tauto

theorem Grouped.add {groups : List Group} (h : Grouped groups) {node : String} {input : Nat}
    {f : Func} (hf : splitRuleName f.name = some (node, input)) :
    Grouped (addToGroup node (input, f) groups) := by
  induction groups with
  | nil =>
    intro g hg
    obtain rfl := List.mem_singleton.mp hg
    simpa using hf
  | cons g₀ groups ih =>
    have hhead := h g₀ List.mem_cons_self
    have htail : Grouped groups := fun g hg => h g (List.mem_cons_of_mem _ hg)
    intro g hg
    unfold addToGroup at hg
    split at hg
    · rename_i hname
      rcases List.mem_cons.mp hg with rfl | hg
      · refine ⟨List.ne_nil_of_mem (mem_insertRule.mpr (.inl rfl)), fun rule hrule => ?_⟩
        rcases mem_insertRule.mp hrule with rfl | hrule
        · exact hname ▸ hf
        · exact hhead.2 rule hrule
      · exact htail g hg
    · rcases List.mem_cons.mp hg with rfl | hg
      · exact hhead
      · exact ih htail g hg

theorem Grouped.group {fs : List Func} {groups result : List Group} (h : Grouped groups)
    (hresult : group fs groups = .ok result) : Grouped result := by
  induction fs generalizing groups with
  | nil =>
    cases hresult
    exact h
  | cons f fs ih =>
    unfold Catalogue.group at hresult
    split at hresult
    · rename_i hf
      exact ih (h.add hf) hresult
    · cases hresult

/-! ## Additions -/

/-- All nodes of the catalogue are sound. -/
def Sound (c : Catalogue) : Prop := ∀ n ∈ c.nodes, n.isSound = true

theorem addGroup_apply (g : Group) (c : Catalogue) :
    addGroup g c = if (c.paths.lookup g.1).isSome then .error (.catalogue g.1 .nodeRedefined) c
      else match nodeOf g.1 g.2 with
        | .ok node => .ok () (c.register node)
        | .error fault => .error (.catalogue g.1 fault) c := by
  unfold addGroup
  rw [get_bind]
  cases (c.paths.lookup g.1).isSome with
  | true => rfl
  | false => cases nodeOf g.1 g.2 <;> rfl

/-- The property survives the registration of a node. -/
def Survives (P : Catalogue → Prop) : Prop :=
  ∀ (c : Catalogue) (g : Group) (n : Node), P c → ¬(c.paths.lookup g.1).isSome → Grouped [g] →
    nodeOf g.1 g.2 = .ok n → P (c.register n)

namespace Survives

variable {P : Catalogue → Prop} {c : Catalogue}

theorem addGroup (h : Survives P) {g : Group} (hg : Grouped [g]) (hc : P c) :
    Ends (addGroup g c) (fun _ c' => P c') fun _ c' => P c' := by
  rw [addGroup_apply]
  split
  · exact hc
  rename_i hfree
  cases hn : nodeOf g.1 g.2 with
  | error fault => exact hc
  | ok n => exact h c g n hc hfree hg hn

theorem addGroups (h : Survives P) {gs : List Group} (hgs : Grouped gs) (hc : P c) :
    Ends (addGroups gs c) (fun _ c' => P c') fun _ c' => P c' := by
  induction gs generalizing c with
  | nil => exact hc
  | cons g gs ih =>
    have hg : Grouped [g] := by
      intro g' hg'
      rw [List.mem_singleton.mp hg']
      exact hgs g List.mem_cons_self
    change Ends ((Catalogue.addGroup g >>= fun _ => Catalogue.addGroups gs) c) _ _
    rw [ends_bind]
    apply (h.addGroup hg hc).mono
    · intro _ c' hc'
      exact ih (fun g' hg' => hgs g' (List.mem_cons_of_mem _ hg')) hc'
    · exact fun _ _ hc' => hc'

theorem addFuncs (h : Survives P) (fs : List Func) (hc : P c) :
    Ends (addFuncs fs c) (fun _ c' => P c') fun _ c' => P c' := by
  unfold Catalogue.addFuncs
  cases hgroups : Catalogue.group fs [] with
  | ok groups => exact h.addGroups (Grouped.group (fun g hg => absurd hg List.not_mem_nil) hgroups) hc
  | error e => exact hc

theorem addText (h : Survives P) (src : String) (hc : P c) :
    Ends (addText src c) (fun _ c' => P c') fun _ c' => P c' := by
  unfold Catalogue.addText
  cases Func.readAll src with
  | ok fs => exact h.addFuncs fs hc
  | error e => exact hc

end Survives

theorem sound_survives : Survives Sound := by
  intro c g node hc _ _ hn n hmem
  rcases List.mem_append.mp hmem with h | h
  · exact hc n h
  · rw [List.mem_singleton.mp h]
    exact nodeOf_sound hn

/-- The catalogues that there are: the empty one, the one of the primitive operations,
and what texts make of one, also texts that turn out to be faulty. -/
inductive IsBuilt : Catalogue → Prop where
  | empty : IsBuilt {}
  | builtin : IsBuilt .builtin
  | text {c c' : Catalogue} (src : String) (built : IsBuilt c)
      (added : addText src c = .ok () c' ∨ ∃ e, addText src c = .error e c') : IsBuilt c'

theorem builtin_sound : builtin.Sound := by
  have h : builtin.nodes.all Node.isSound = true := by decide +kernel
  exact List.all_eq_true.mp h

/-- **The nodes of every catalogue are sound.** -/
theorem IsBuilt.sound {c : Catalogue} (h : IsBuilt c) : c.Sound := by
  induction h with
  | empty => exact fun n hn => absurd hn List.not_mem_nil
  | builtin => exact builtin_sound
  | text src built added ih =>
    have h := sound_survives.addText src ih
    rcases added with hadd | ⟨e, hadd⟩
    · rw [hadd] at h; exact h
    · rw [hadd] at h; exact h

theorem mem_of_find? {c : Catalogue} {qualified : String} (h : c.find? qualified = some n) :
    n ∈ c.nodes := by
  obtain ⟨i, -, hn⟩ := Option.bind_eq_some_iff.mp h
  exact List.mem_of_getElem? hn

theorem mem_of_unique {c : Catalogue} {callee name : String}
    (h : c.unique callee name = .ok (some n)) : n ∈ c.nodes := by
  unfold unique at h
  split at h
  · cases h
  · rename_i hnamed
    cases h
    have hmem : n ∈ c.named name := by rw [hnamed]; simp
    obtain ⟨i, -, hn⟩ := List.mem_filterMap.mp hmem
    exact List.mem_of_getElem? hn
  · cases h

/-- Nodes that are found are in the catalogue. -/
theorem mem_of_find {c : Catalogue} {t : Target} (h : c.find t = .ok (some n)) : n ∈ c.nodes := by
  cases t with
  | op opcode =>
    have hfound : c.find? ("math." ++ opcode.name) = some n := Except.ok.inj h
    exact mem_of_find? hfound
  | call callee link =>
    cases link with
    | some link =>
      obtain ⟨answer, hanswer, h₁⟩ := except_bind_eq_ok.mp h
      cases answer with
      | none => cases h₁
      | some node =>
        cases h₁
        exact mem_of_unique hanswer
    | none =>
      cases hfound : c.find? callee with
      | some node =>
        have hnode : some node = some n := by simpa [find, hfound] using h
        cases hnode
        exact mem_of_find? hfound
      | none => exact mem_of_unique (by simpa [find, hfound] using h)

/-- The answer that the tables give. -/
def search (c : Catalogue) (e : Expr) : Except DiffError (Option Node) :=
  match Target.ofExpr? e with
  | some t => c.find t
  | none => .ok none

end Catalogue

namespace Resolver

theorem resolveTarget_apply (c : Catalogue) (t : Target) (r : Resolver) :
    resolveTarget c t r = match r.memo.lookup t with
      | some answer => .ok answer r
      | none => match c.find t with
        | .error e => .error e r
        | .ok answer => .ok answer
          { memo := (t, answer) :: r.memo,
            events := match answer with
              | some node => r.events.push (.resolved t node.name)
              | none => r.events } := by
  unfold resolveTarget
  rw [get_bind]
  cases r.memo.lookup t with
  | some answer => rfl
  | none => cases c.find t <;> rfl

/-- What is remembered is what would be found again. -/
def Sound (c : Catalogue) (r : Resolver) : Prop :=
  ∀ t node, r.memo.lookup t = some node → c.find t = .ok node

variable {c : Catalogue} {r : Resolver}

/-- Resolving gives the answer of the tables, and remembers nothing else. -/
theorem Sound.resolve (h : r.Sound c) (e : Expr) :
    Ends (resolve c e r) (fun node r' => c.search e = .ok node ∧ r'.Sound c)
      fun fault r' => c.search e = .error fault ∧ r'.Sound c := by
  unfold Resolver.resolve Catalogue.search
  cases Target.ofExpr? e with
  | none => exact ⟨rfl, h⟩
  | some t =>
    dsimp only
    rw [resolveTarget_apply]
    cases hmemo : r.memo.lookup t with
    | some node => exact ⟨h t node hmemo, h⟩
    | none =>
      cases hfind : c.find t with
      | error fault => exact ⟨rfl, h⟩
      | ok node =>
        refine ⟨rfl, fun t' node' hlookup => ?_⟩
        rw [List.lookup_cons] at hlookup
        by_cases ht : t' = t
        · subst ht
          rw [beq_self_eq_true] at hlookup
          cases hlookup
          exact hfind
        · rw [beq_eq_false_iff_ne.mpr ht] at hlookup
          exact h t' node' hlookup

end Resolver

end Backsweep
