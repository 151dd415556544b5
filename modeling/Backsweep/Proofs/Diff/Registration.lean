import Mathlib
import Backsweep.Proofs.Diff.Inlining

/-!
# Registering nodes and finding them again

Catalogues grow node by node. An addition that fails keeps the nodes in front of its fault, and
a search that fails is not remembered.

* `Rule.Serves`, `Node.Complete`: what the checks of a node ensure;
* `Catalogue.Consistent`: the three tables tell the same;
* `Catalogue.Reached`: what any additions make of the empty catalogue;
* `Catalogue.Answers`: what expressions resolve to, told by the nodes alone;
* `Catalogue.reached_resolves`: catalogues that are reached are consistent, and resolvers answer by
  their nodes whatever they were asked before.
-/

namespace Backsweep

/-! ## Complete nodes -/

namespace Rule

theorem ne_nil_of_splitParams {ps inputs : List Var} {upstream primal : Var}
    (h : splitParams ps = some (upstream, inputs, primal)) : inputs ≠ [] := by
  unfold splitParams at h
  split at h
  · split at h
    · cases h
      simp
    · cases h
  · cases h

/-- Rules are made from functions of the upstream derivative, the result, and at least one input,
which are all real. -/
theorem ofFunc_params {f : Func} {r : Rule} (h : ofFunc f = .ok r) :
    3 ≤ f.params.length ∧ ∀ p ∈ f.params, f.varTy p = .real := by
  unfold ofFunc at h
  dsimp only at h
  split at h
  · cases h
  split at h
  swap
  · cases h
  rename_i upstream inputs primal hsplit
  split at h
  · cases h
  rename_i hreal
  constructor
  · have hinputs := List.length_pos_of_ne_nil (ne_nil_of_splitParams hsplit)
    rw [splitParams_eq_some hsplit]
    simp only [List.length_append, List.length_cons, List.length_nil]
    omega
  · have hnone : f.params.find? (f.varTy · ≠ .real) = none :=
      Option.eq_none_iff_forall_ne_some.mpr hreal
    intro p hp
    simpa using List.find?_eq_none.mp hnone p hp

/-- The rule is the one for input `i` of the node. -/
structure Serves (r : Rule) (n : Node) (i : Nat) : Prop where
  name : Catalogue.splitRuleName r.func.name = some (n.qualified, i)
  count : r.func.params.length = n.arity + 2
  real : ∀ p ∈ r.func.params, r.func.varTy p = .real
  accepted : ofFunc r.func = .ok r

end Rule

/-- The node has inputs and a rule for each of them. -/
structure Node.Complete (n : Node) : Prop where
  name : n.name = nodeName n.qualified
  arity : 1 ≤ n.arity
  count : n.rules.length = n.arity
  rules : ∀ (i : Nat) (r : Rule), n.rules[i]? = some r → r.Serves n i

namespace Catalogue

/-- Checked rules stand in order of their inputs. -/
theorem rulesFrom_getElem? {arity input : Nat} {rules : List (Nat × Func)} {checked : List Rule}
    (h : rulesFrom arity input rules = .ok checked) {i : Nat} {r : Rule}
    (hr : checked[i]? = some r) :
    ∃ f, rules[i]? = some (input + i, f) ∧ f.params.length = arity + 2 ∧ Rule.ofFunc f = .ok r := by
  induction rules generalizing input checked i with
  | nil =>
    cases h
    simp at hr
  | cons rule rules ih =>
    obtain ⟨r', rs, rfl, hinput, hcount, hrule, hrs⟩ := rulesFrom_cons h
    cases i with
    | zero =>
      cases hr
      exact ⟨rule.2, by simp [← hinput], hcount, hrule⟩
    | succ i =>
      obtain ⟨f, hf, hf'⟩ := ih hrs (by simpa using hr)
      refine ⟨f, ?_, hf'⟩
      rw [List.getElem?_cons_succ, hf, Nat.add_assoc, Nat.add_comm 1]

/-- **The node of a group is complete.** -/
theorem nodeOf_complete {qualified : String} {rules : List (Nat × Func)} {n : Node}
    (hne : rules ≠ [])
    (hnames : ∀ rule ∈ rules, splitRuleName rule.2.name = some (qualified, rule.1))
    (h : nodeOf qualified rules = .ok n) : n.qualified = qualified ∧ n.Complete := by
  obtain ⟨checked, hchecked, rfl⟩ := nodeOf_eq_ok h
  refine ⟨rfl, { name := ?_, arity := ?_, count := ?_, rules := ?_ }⟩
  · rfl
  · -- the first rule has inputs, and as many as the others
    obtain ⟨rule, rules, rfl⟩ := List.exists_cons_of_ne_nil hne
    obtain ⟨r, rs, -, -, hcount, hrule, -⟩ := rulesFrom_cons hchecked
    have hparams := (Rule.ofFunc_params hrule).1
    dsimp only
    omega
  · rfl
  · intro i r hr
    obtain ⟨f, hf, hcount, hrule⟩ := rulesFrom_getElem? hchecked hr
    obtain ⟨steps, haccepted⟩ := Rule.accepted_of_ofFunc hrule
    obtain rfl := haccepted.func
    rw [Nat.zero_add] at hf
    have hname := hnames _ (List.mem_of_getElem? hf)
    exact ⟨hname, hcount, (Rule.ofFunc_params hrule).2, hrule⟩

/-! ## Consistent tables -/

/-- The tables of a catalogue tell the same: paths are unique and stand in order of registration,
every name leads to all nodes that have it, and the nodes are complete. -/
structure Consistent (c : Catalogue) : Prop where
  distinct : (c.nodes.map Node.qualified).Nodup
  paths : c.paths = c.nodes.zipIdx.map fun p => (p.1.qualified, p.2)
  names : ∀ name, c.names.lookup name =
    Option.guard (!·.isEmpty) (c.nodes.findIdxs (nodeName ·.qualified == name))
  complete : ∀ n ∈ c.nodes, n.Complete

theorem getD_guard (positions : List Nat) :
    (Option.guard (!·.isEmpty) positions).getD [] = positions := by
  cases positions <;> rfl

theorem lookup_cons_if {β : Type} (key name : String) (b : β) (entries : List (String × β)) :
    ((name, b) :: entries).lookup key = if key = name then some b else entries.lookup key := by
  rw [List.lookup_cons]
  by_cases h : key = name
  · simp [h]
  · rw [if_neg h, beq_eq_false_iff_ne.mpr h]

theorem lookup_addName (key name : String) (position : Nat) (names : List (String × List Nat)) :
    (addName name position names).lookup key =
      if key = name then some ((names.lookup name).getD [] ++ [position])
      else names.lookup key := by
  induction names with
  | nil => exact lookup_cons_if key name [position] []
  | cons entry names ih =>
    obtain ⟨n, positions⟩ := entry
    unfold addName
    by_cases hn : n = name
    · subst hn
      by_cases hkey : key = n
      · simp [hkey]
      · simp [lookup_cons_if, hkey]
    · rw [if_neg hn]
      by_cases hkey : key = n
      · subst hkey
        simp [hn]
      · simp [lookup_cons_if, hkey, ih, Ne.symm hn]

theorem consistent_empty : Consistent {} where
  distinct := List.nodup_nil
  paths := rfl
  names _ := rfl
  complete _ h := nomatch h

theorem Consistent.register {c : Catalogue} (h : c.Consistent) {n : Node} (hn : n.Complete)
    (hnew : ∀ n' ∈ c.nodes, n'.qualified ≠ n.qualified) : (c.register n).Consistent where
  distinct := by
    have hdisjoint : ∀ q ∈ c.nodes.map Node.qualified, q ≠ n.qualified := by
      simpa using hnew
    simpa [Catalogue.register, List.nodup_append, h.distinct] using hdisjoint
  paths := by
    simp [Catalogue.register, h.paths, List.zipIdx_append]
  names name := by
    rw [Catalogue.register, lookup_addName, hn.name, h.names, h.names, List.findIdxs_append,
      getD_guard]
    by_cases hname : name = nodeName n.qualified
    · simp [hname, Option.guard]
    · simp [hname, Ne.symm hname]
  complete n' hn' := by
    rcases List.mem_append.mp hn' with hn' | hn'
    · exact h.complete n' hn'
    · rw [List.mem_singleton.mp hn']
      exact hn

section
variable {c : Catalogue}

theorem Consistent.lookup_paths (h : c.Consistent) (qualified : String) :
    c.paths.lookup qualified = c.nodes.findIdx? (·.qualified == qualified) := by
  have from_ (nodes : List Node) (k : Nat) :
      ((nodes.zipIdx k).map fun p => (p.1.qualified, p.2)).lookup qualified =
        (nodes.findIdx? (·.qualified == qualified)).map (· + k) := by
    induction nodes generalizing k with
    | nil => rfl
    | cons n nodes ih =>
      rw [List.zipIdx_cons, List.map_cons, lookup_cons_if, ih, List.findIdx?_cons]
      by_cases hn : qualified = n.qualified
      · simp [hn]
      · have hne : (n.qualified == qualified) = false := beq_eq_false_iff_ne.mpr (Ne.symm hn)
        simp only [if_neg hn, hne, Bool.false_eq_true, ite_false, Option.map_map]
        congr 1
        funext i
        simp only [Function.comp_apply]
        omega
  rw [h.paths, from_ c.nodes 0]
  simp

/-- The path table leads to the node of a path. -/
theorem Consistent.find?_eq (h : c.Consistent) (qualified : String) :
    c.find? qualified = c.nodes.find? (·.qualified == qualified) := by
  rw [find?, h.lookup_paths]
  generalize c.nodes = nodes
  induction nodes with
  | nil => rfl
  | cons n nodes ih =>
    rw [List.findIdx?_cons, List.find?_cons]
    cases n.qualified == qualified with
    | true => rfl
    | false =>
      rw [← ih]
      cases nodes.findIdx? (·.qualified == qualified) <;> rfl

theorem Consistent.find?_eq_some (h : c.Consistent) {qualified : String} {n : Node} :
    c.find? qualified = some n ↔ n ∈ c.nodes ∧ n.qualified = qualified := by
  rw [h.find?_eq]
  constructor
  · intro hn
    exact ⟨List.mem_of_find?_eq_some hn, by simpa using List.find?_some hn⟩
  · rintro ⟨hn, rfl⟩
    cases hfound : c.nodes.find? (·.qualified == n.qualified) with
    | none =>
      have := List.find?_eq_none.mp hfound n hn
      simp at this
    | some n' =>
      have hn' : n'.qualified = n.qualified := by simpa using List.find?_some hfound
      rw [List.inj_on_of_nodup_map h.distinct (List.mem_of_find?_eq_some hfound) hn hn']

theorem Consistent.find?_eq_none (h : c.Consistent) {qualified : String} :
    c.find? qualified = none ↔ ∀ n ∈ c.nodes, n.qualified ≠ qualified := by
  rw [h.find?_eq, List.find?_eq_none]
  simp

/-- Positions lead back to what they were counted for. -/
theorem filterMap_positions (nodes : List Node) (p : Node → Bool) :
    (nodes.zipIdx.filterMap fun q => if p q.1 then nodes[q.2]? else none) = nodes.filter p := by
  have hnode (q : Node × Nat) (hq : q ∈ nodes.zipIdx) :
      (if p q.1 then nodes[q.2]? else none) = Option.guard p q.1 := by
    rw [List.mem_zipIdx_iff_getElem?.mp hq]
    rfl
  calc nodes.zipIdx.filterMap (fun q => if p q.1 then nodes[q.2]? else none)
      = nodes.zipIdx.filterMap (Option.guard p ∘ Prod.fst) := List.filterMap_congr hnode
    _ = (nodes.zipIdx.map Prod.fst).filterMap (Option.guard p) := List.filterMap_map.symm
    _ = nodes.filter p := by rw [List.zipIdx_map_fst, List.filterMap_eq_filter]

/-- The name table leads to the nodes of a name. -/
theorem Consistent.named_eq (h : c.Consistent) (name : String) :
    c.named name = c.nodes.filter (nodeName ·.qualified == name) := by
  rw [named, h.names, getD_guard, List.findIdxs_eq_filterMap_zipIdx, List.filterMap_filterMap,
    ← filterMap_positions]
  refine List.filterMap_congr fun q _ => ?_
  generalize (nodeName q.1.qualified == name) = isNamed
  cases isNamed <;> rfl

/-- Nodes are listed in order of registration. -/
theorem Consistent.listed_eq (h : c.Consistent) : c.listed = c.nodes := by
  have hall := filterMap_positions c.nodes fun _ => true
  rw [List.filter_true] at hall
  rw [listed, h.paths, List.filterMap_map]
  exact hall

end

/-! ## Additions -/

/-- The catalogues that texts and lists of functions make of the empty one, also such that turn
out to be faulty. -/
inductive Reached : Catalogue → Prop where
  | empty : Reached {}
  | funcs {c : Catalogue} (fs : List Func) (reached : Reached c) : Reached (endState (addFuncs fs c))
  | text {c : Catalogue} (src : String) (reached : Reached c) : Reached (endState (addText src c))

theorem consistent_survives : Survives Consistent := by
  intro c g n hc hfree hg hn
  obtain ⟨hne, hnames⟩ := hg g (List.mem_singleton_self g)
  obtain ⟨hqualified, hcomplete⟩ := nodeOf_complete hne hnames hn
  apply hc.register hcomplete
  intro n' hn' heq
  apply hfree
  rw [hc.lookup_paths, List.findIdx?_isSome]
  exact List.any_eq_true.mpr ⟨n', hn', by simpa [hqualified] using heq⟩

theorem Reached.consistent {c : Catalogue} (h : c.Reached) : c.Consistent := by
  induction h with
  | empty => exact consistent_empty
  | funcs fs _ ih => exact (consistent_survives.addFuncs fs ih).endState
  | text src _ ih => exact (consistent_survives.addText src ih).endState

/-- The catalogues that are built are reached by additions. -/
theorem IsBuilt.reached {c : Catalogue} (h : IsBuilt c) : c.Reached := by
  induction h with
  | empty => exact .empty
  | builtin =>
    have hend : Catalogue.builtin = endState (addFuncs Builtin.rules {}) := by
      unfold Catalogue.builtin
      cases addFuncs Builtin.rules {} <;> rfl
    rw [hend]
    exact .funcs _ .empty
  | text src _ added ih =>
    have hreached := Reached.text src ih
    rcases added with hadd | ⟨e, hadd⟩
    · rw [hadd] at hreached
      exact hreached
    · rw [hadd] at hreached
      exact hreached

/-! ## Resolution -/

/-- What a name leads to: its only node, nothing, or the paths of all nodes that have it. -/
inductive OfName (c : Catalogue) (callee name : String) : Except DiffError (Option Node) → Prop where
  | none (free : ∀ n ∈ c.nodes, nodeName n.qualified ≠ name) : OfName c callee name (.ok none)
  | only {n : Node} (one : c.nodes.filter (nodeName ·.qualified == name) = [n]) :
      OfName c callee name (.ok (some n))
  | several {n n' : Node} {rest : List Node}
      (many : c.nodes.filter (nodeName ·.qualified == name) = n :: n' :: rest) :
      OfName c callee name (.error (.ambiguousNode callee ((n :: n' :: rest).map Node.qualified)))

/-- What expressions resolve to. A link comes before the path of the callee, and that before the
name derived from it. -/
inductive Answers (c : Catalogue) : Expr → Except DiffError (Option Node) → Prop where
  | linked {callee link : String} {args : List Var} {n : Node}
      (found : c.OfName callee link (.ok (some n))) :
      Answers c (.call callee args (some link)) (.ok (some n))
  | unknown {callee link : String} {args : List Var} (found : c.OfName callee link (.ok none)) :
      Answers c (.call callee args (some link)) (.error (.unknownNode link))
  | ambiguous {callee link : String} {args : List Var} {e : DiffError}
      (found : c.OfName callee link (.error e)) :
      Answers c (.call callee args (some link)) (.error e)
  | path {n : Node} {args : List Var} (found : n ∈ c.nodes) :
      Answers c (.call n.qualified args none) (.ok (some n))
  | derived {callee : String} {args : List Var} {answer : Except DiffError (Option Node)}
      (free : ∀ n ∈ c.nodes, n.qualified ≠ callee)
      (found : c.OfName callee (nodeName callee) answer) :
      Answers c (.call callee args none) answer
  | op {opcode : Opcode} {args : List Var} {n : Node} (found : n ∈ c.nodes)
      (path : n.qualified = "math." ++ opcode.name) : Answers c (.op opcode args) (.ok (some n))
  | noRule {opcode : Opcode} {args : List Var}
      (free : ∀ n ∈ c.nodes, n.qualified ≠ "math." ++ opcode.name) :
      Answers c (.op opcode args) (.ok none)
  | other {e : Expr} (op : ∀ opcode args, e ≠ .op opcode args)
      (call : ∀ callee args link, e ≠ .call callee args link) : Answers c e (.ok none)

section
variable {c : Catalogue}

theorem Consistent.ofName_iff (h : c.Consistent) {callee name : String}
    {answer : Except DiffError (Option Node)} :
    c.OfName callee name answer ↔ c.unique callee name = answer := by
  have hfree : c.nodes.filter (nodeName ·.qualified == name) = [] ↔
      ∀ n ∈ c.nodes, nodeName n.qualified ≠ name := by
    simp [List.filter_eq_nil_iff]
  unfold unique
  rw [h.named_eq]
  constructor
  · intro hanswer
    cases hanswer with
    | none free => rw [hfree.mpr free]
    | only one => rw [one]
    | several many => rw [many]
  · intro hanswer
    split at hanswer
    · rename_i hnone
      exact hanswer ▸ .none (hfree.mp hnone)
    · rename_i hone
      exact hanswer ▸ .only hone
    · rename_i hmany hnone hone
      generalize hnodes : c.nodes.filter (nodeName ·.qualified == name) = nodes at *
      cases nodes with
      | nil => exact absurd rfl hnone
      | cons n nodes =>
        cases nodes with
        | nil => exact absurd rfl (hone n)
        | cons n' rest => exact hanswer ▸ .several hnodes

theorem find_link (c : Catalogue) (callee link : String) :
    c.find (.call callee (some link)) = match c.unique callee link with
      | .ok (some n) => .ok (some n)
      | .ok none => .error (.unknownNode link)
      | .error e => .error e := by
  unfold find
  dsimp only
  cases c.unique callee link with
  | ok answer => cases answer <;> rfl
  | error e => rfl

/-- **The tables answer as the nodes tell.** -/
theorem Consistent.answers_iff (h : c.Consistent) {e : Expr}
    {answer : Except DiffError (Option Node)} : c.Answers e answer ↔ c.search e = answer := by
  constructor
  · intro hanswer
    cases hanswer with
    | linked found => exact (find_link c _ _).trans (by rw [h.ofName_iff.mp found])
    | unknown found => exact (find_link c _ _).trans (by rw [h.ofName_iff.mp found])
    | ambiguous found => exact (find_link c _ _).trans (by rw [h.ofName_iff.mp found])
    | path found => simp [search, Target.ofExpr?, find, h.find?_eq_some.mpr ⟨found, rfl⟩]
    | derived free found =>
      simp [search, Target.ofExpr?, find, h.find?_eq_none.mpr free, h.ofName_iff.mp found]
    | op found path => exact congrArg Except.ok (h.find?_eq_some.mpr ⟨found, path⟩)
    | noRule free => exact congrArg Except.ok (h.find?_eq_none.mpr free)
    | other op call =>
      cases e with
      | op opcode args => exact absurd rfl (op opcode args)
      | call callee args link => exact absurd rfl (call callee args link)
      | _ => rfl
  · rintro rfl
    cases e with
    | op opcode args =>
      change c.Answers _ (.ok (c.find? ("math." ++ opcode.name)))
      cases hfound : c.find? ("math." ++ opcode.name) with
      | none => exact .noRule (h.find?_eq_none.mp hfound)
      | some n => exact .op (h.find?_eq_some.mp hfound).1 (h.find?_eq_some.mp hfound).2
    | call callee args link =>
      cases link with
      | some link =>
        change c.Answers _ (c.find (.call callee (some link)))
        rw [find_link]
        cases hfound : c.unique callee link with
        | error e => exact .ambiguous (h.ofName_iff.mpr hfound)
        | ok answer =>
          cases answer with
          | none => exact .unknown (h.ofName_iff.mpr hfound)
          | some n => exact .linked (h.ofName_iff.mpr hfound)
      | none =>
        cases hfound : c.find? callee with
        | some n =>
          obtain ⟨hn, rfl⟩ := h.find?_eq_some.mp hfound
          simpa [search, Target.ofExpr?, find, hfound] using .path hn
        | none =>
          have hsearch : c.search (.call callee args none) = c.unique callee (nodeName callee) := by
            simp [search, Target.ofExpr?, find, hfound]
          rw [hsearch]
          exact .derived (h.find?_eq_none.mp hfound) (h.ofName_iff.mpr rfl)
    | _ => exact .other (by simp) (by simp)

end

end Catalogue

/-! ## Resolvers -/

namespace Resolver

/-- What a resolver says of an expression. -/
def answer (c : Catalogue) (r : Resolver) (e : Expr) : Except DiffError (Option Node) :=
  match resolve c e r with
  | .ok node _ => .ok node
  | .error fault _ => .error fault

/-- A resolver that was asked for expressions, whether it found their nodes or failed. -/
def after (c : Catalogue) (r : Resolver) : List Expr → Resolver
  | [] => r
  | e :: history => after c (endState (resolve c e r)) history

variable {c : Catalogue} {r : Resolver}

theorem Sound.answer_eq (h : r.Sound c) (e : Expr) : r.answer c e = c.search e := by
  have hresolve := h.resolve e
  unfold answer
  cases hr : Resolver.resolve c e r with
  | ok node r' => rw [hr] at hresolve; exact hresolve.1.symm
  | error fault r' => rw [hr] at hresolve; exact hresolve.1.symm

theorem Sound.after (h : r.Sound c) (history : List Expr) : (r.after c history).Sound c := by
  induction history generalizing r with
  | nil => exact h
  | cons e history ih =>
    apply ih
    apply Ends.endState
    exact (h.resolve e).mono (fun _ _ h => h.2) fun _ _ h => h.2

end Resolver

namespace Catalogue

/-- **Catalogues that are reached are consistent, and resolvers answer by their nodes.** What a
resolver was asked before, and whether that failed, makes no difference. -/
theorem reached_resolves {c : Catalogue} (h : c.Reached) :
    c.Consistent ∧ c.listed = c.nodes ∧ ∀ (history : List Expr) (e : Expr),
      (Resolver.after c {} history).answer c e = ({} : Resolver).answer c e ∧
      ∀ answer, c.Answers e answer ↔ (Resolver.after c {} history).answer c e = answer := by
  have hc := h.consistent
  have hnew : Resolver.Sound c {} := fun t node hnode => by cases hnode
  refine ⟨hc, hc.listed_eq, fun history e => ?_⟩
  rw [(hnew.after history).answer_eq, hnew.answer_eq]
  exact ⟨rfl, fun answer => hc.answers_iff⟩

/-- A rule that doubles the upstream derivative. -/
def doublingRule (name : String) : Func where
  name := name
  attrs := []
  params := [⟨0⟩, ⟨1⟩, ⟨2⟩]
  returns := [.real]
  vars := #[⟨"upstream", .real, false⟩, ⟨"x", .real, false⟩, ⟨"primal", .real, false⟩,
    ⟨"r", .real, false⟩]
  body := [.define ⟨3⟩ true (.op .fadd [⟨0⟩, ⟨0⟩]), .ret [⟨3⟩]]

/-- The first addition stops at a node without a rule for its first input. -/
def twice : Catalogue :=
  endState (addFuncs [doublingRule "other.double.d0"] (endState
    (addFuncs [doublingRule "nn.double.d0", doublingRule "nn.bad.d1", doublingRule "nn.late.d0"] {})))

/-- After a search that failed and one that was ambiguous, the path of a node still leads to it,
and the name of both leads to none. -/
theorem twice_resolves :
    twice.nodes.map Node.qualified = ["nn.double", "other.double"] ∧ twice.Consistent ∧
      (let r := Resolver.after twice {}
        [.call "f" [] (some "NoNode"), .call "my.double" [] none, .call "nn.double" [] none]
      (∃ n ∈ twice.nodes, r.answer twice (.call "nn.double" [] none) = .ok (some n)) ∧
        r.answer twice (.call "my.double" [] none) =
          .error (.ambiguousNode "my.double" ["nn.double", "other.double"])) := by
  have hreached : twice.Reached := .funcs _ (.funcs _ .empty)
  obtain ⟨hconsistent, -, hanswers⟩ := reached_resolves hreached
  have hpaths : twice.nodes.map Node.qualified = ["nn.double", "other.double"] := by
    decide +kernel
  obtain ⟨n, rest, hnodes, hn, hrest⟩ := List.map_eq_cons_iff.mp hpaths
  obtain ⟨n', rfl, hn'⟩ := List.map_eq_singleton_iff.mp hrest
  refine ⟨hpaths, hconsistent, ⟨n, by simp [hnodes], ?_⟩, ?_⟩
  · apply ((hanswers _ _).2 _).mp
    rw [← hn]
    exact .path (by simp [hnodes])
  · apply ((hanswers _ _).2 _).mp
    have hname : nodeName "nn.double" = nodeName "my.double" ∧
        nodeName "other.double" = nodeName "my.double" := by decide +kernel
    rw [← hn, ← hn'] at hname
    have hmany : twice.nodes.filter (nodeName ·.qualified == nodeName "my.double") = [n, n'] := by
      simp [hnodes, hname.1, hname.2]
    have hfree : ∀ n ∈ twice.nodes, n.qualified ≠ "my.double" := by simp [hnodes, hn, hn']
    have hseveral := @OfName.several twice "my.double" _ _ _ _ hmany
    simp only [List.map_cons, List.map_nil, hn, hn'] at hseveral
    exact .derived hfree hseveral

end Catalogue

end Backsweep
