import ProgramGraph.Proofs.Store.Narrowing
import ProgramGraph.Proofs.Store.Table
import ProgramGraph.Proofs.Text.Utf8
import ProgramGraph.Query.Execution

set_option autoImplicit false

/-! # A plan gives what the conditions mean

What a query means does not depend on how it is answered: a node is selected if its conditions,
joined strictly from left to right, come out true (`Query.selects`). A plan takes other ways. It
lets the store evaluate comparisons, turns relations into steps, and asks for LIKE in the end; or
it folds all conditions for each node of the kind. `answer_table` says that over rows every plan
selects the same nodes, and that a page is cut from the whole list.
-/

namespace ProgramGraph

open ProgramGraph.Text

/-! ## What a query means -/

/-- The node with an identifier is related to a target, as the rows tell. -/
def Rows.relates (rows : Rows) (id : String) (relation : EdgeKind) (target : String) : Bool :=
  rows.edges.keys.any fun key =>
    key.kind = relation &&
      match Query.relationDirection relation with
      | .outgoing => key.source = id && Query.targetMatches target key.target
      | .incoming => key.target = id && Query.targetMatches target key.source

namespace Query

/-- The condition is true of a node. -/
def Condition.means (rows : Rows) (n : Node) : Condition → Bool
  | .attribute name op value => op.holds (n.property? name) value
  | .related relation target => rows.relates n.id relation target

/-- The conditions joined strictly from left to right. -/
def Conditions.joinLeft (cs : Conditions) (p : Condition → Bool) : Bool :=
  cs.rest.foldl (fun acc (connective, c) => connective.join acc (p c)) (p cs.first)

/-- The conditions of the query are true of a node. -/
def selects (q : Query) (rows : Rows) (n : Node) : Bool :=
  q.conditions.all fun cs => cs.joinLeft (Condition.means rows n)

/-! ## Joining -/

/-- Joining what never fails never fails. -/
theorem Conditions.fold_eq {holds : Condition → Outcome Bool} {p : Condition → Bool}
    (h : ∀ c, holds c = .ok (p c)) (cs : Conditions) : cs.fold holds = .ok (cs.joinLeft p) := by
  obtain rfl : holds = fun c => pure (p c) := funext h
  exact List.foldlM_pure

/-- Without OR, all conditions must hold. -/
theorem Conditions.joinLeft_of_not_hasOr {cs : Conditions} (h : cs.hasOr = false)
    (p : Condition → Bool) : cs.joinLeft p = cs.toList.all p := by
  obtain ⟨first, rest⟩ := cs
  -- Conditions are joined from the left, so the claim is about any result that was reached before.
  suffices hrest : ∀ acc, rest.foldl
      (fun acc (connective, c) => Connective.join connective acc (p c)) acc =
        (acc && (rest.map Prod.snd).all p) by
    simpa [joinLeft, toList] using hrest (p first)
  induction rest with
  | nil => simp
  | cons link rest ih =>
      intro acc
      obtain ⟨connective, c⟩ := link
      simp only [hasOr, List.any_cons, Bool.or_eq_false_iff, decide_eq_false_iff_not] at h
      cases connective with
      | and =>
          rw [List.foldl_cons, ih h.2]
          simp [Connective.join, Bool.and_assoc]
      | or => exact absurd rfl h.1

/-- The condition is a relation. -/
def Condition.isRelated : Condition → Bool
  | .attribute .. => false
  | .related .. => true

/-- Asking one thing after the other, all of which must hold. -/
theorem foldl_and (p : Condition → Bool) (acc : Bool) (conditions : List Condition) :
    conditions.foldl (fun acc c => acc && p c) acc = (acc && conditions.all p) := by
  induction conditions generalizing acc with
  | nil => simp
  | cons c rest ih => rw [List.foldl_cons, ih, List.all_cons, Bool.and_assoc]

/-- Every condition is of one of three sorts: the store evaluates it, it is a relation, or it is
left for the end. -/
theorem all_eq_sorts (p : Condition → Bool) (conditions : List Condition) :
    conditions.all p =
      ((conditions.filter fun c => c.pushed?.isSome).all p &&
        (conditions.filter Condition.isRelated).all p &&
          (conditions.filter Condition.isLike).all p) := by
  induction conditions with
  | nil => rfl
  | cons c rest ih =>
      rw [List.all_cons, ih]
      rcases c with ⟨name, comparison | _, value⟩ | ⟨relation, target⟩
      · simp [Condition.pushed?, Condition.isRelated, Condition.isLike, Operator.comparison?,
          Bool.and_assoc]
      · simp [Condition.pushed?, Condition.isRelated, Condition.isLike, Operator.comparison?,
          Bool.and_left_comm]
      · simp [Condition.pushed?, Condition.isRelated, Condition.isLike, Bool.and_left_comm,
          Bool.and_assoc]

/-- The filter of a scan asks for the comparisons among the conditions. -/
theorem accepts_pushed (rows : Rows) (n : Node) (conditions : List Condition) :
    Filter.accepts (conditions.filterMap Condition.pushed?) n =
      (conditions.filter fun c => c.pushed?.isSome).all (Condition.means rows n) := by
  induction conditions with
  | nil => rfl
  | cons c rest ih =>
      rcases c with ⟨name, comparison | _, value⟩ | ⟨relation, target⟩
      · show (Filter.Condition.holds ⟨name, comparison, value⟩ n.properties &&
          Filter.accepts (rest.filterMap Condition.pushed?) n) = _
        rw [ih]
        rfl
      · exact ih
      · exact ih

/-! ## The steps of a plan -/

/-- Keeping nodes by a test that never fails is filtering. -/
theorem retain_eq {holds : Node → Outcome Bool} {p : Node → Bool} {nodes : List Node}
    (h : ∀ n ∈ nodes, holds n = .ok (p n)) : retain holds nodes = .ok (nodes.filter p) := by
  induction nodes with
  | nil => rfl
  | cons n rest ih =>
      rw [retain, h n List.mem_cons_self, ih fun m hm => h m (List.mem_cons_of_mem _ hm),
        List.filter_cons]
      rfl

section Table

variable {t : Table} (hstate : t.state.IsReadable) (hdecodes : t.rows.Decodes)

include hstate hdecodes

/-- A relation of a stored node is read off the keys of the edges. -/
theorem hasRelation_eq (n : Node) (relation : EdgeKind) (target : String) :
    hasRelation (.table t) n relation target = .ok (t.rows.relates n.id relation target) := by
  unfold hasRelation Rows.relates
  -- The direction of the relation decides which end of an edge is compared with the target.
  cases hdirection : relationDirection relation with
  | outgoing =>
      have hedges : Store.edgesFrom (.table t) n.id none (some relation) = _ :=
        t.edgesFrom_eq hstate hdecodes n.id none (some relation)
      simp only [hedges]
      refine congrArg Except.ok
        ((hdecodes.any_edgeList _ fun key => targetMatches target key.target).trans ?_)
      congr 1
      funext key
      simp [Bool.and_left_comm, Bool.and_assoc]
  | incoming =>
      have hedges : Store.edgesTo (.table t) n.id (some relation) = _ :=
        t.edgesTo_eq hstate hdecodes n.id (some relation)
      simp only [hedges]
      refine congrArg Except.ok
        ((hdecodes.any_edgeList _ fun key => targetMatches target key.source).trans ?_)
      congr 1
      funext key
      simp [Bool.and_left_comm, Bool.and_assoc]

/-- To ask whether a condition holds gives what it means. -/
theorem Condition.holds_eq (n : Node) (c : Condition) :
    c.holds (.table t) n = .ok (c.means t.rows n) := by
  rcases c with ⟨name, op, value⟩ | ⟨relation, target⟩
  · rfl
  · exact hasRelation_eq hstate hdecodes n relation target

/-- A scan gives the stored nodes of the kind that the filter accepts. -/
theorem scan_eq {filter : Filter} {kind : NodeKind} (hadmits : t.rows.Admits filter)
    (hbound : t.rows.nodeCount (some kind) ≤ scanLimit) :
    scan (.table t) kind filter = .ok ((t.rows.nodeList (some kind)).filter filter.accepts) := by
  have hlength : ((t.rows.nodeList (some kind)).filter filter.accepts).length ≤ scanLimit := by
    refine Nat.le_trans (List.length_filter_le _ _) (Nat.le_trans ?_ hbound)
    exact t.rows.length_nodeList_le (some kind)
  have hfind : scan (.table t) kind filter = _ :=
    t.findNodes_eq hstate hdecodes hadmits (some kind) (some scanLimit) 0
  rw [hfind]
  refine congrArg Except.ok ?_
  show (List.drop 0 _).take scanLimit = _
  rw [List.drop_zero, List.take_of_length_le hlength]

/-- The steps of relations keep the nodes for which all of them hold. -/
theorem relationSteps_eq (q : Query) (conditions : List Condition) (nodes : List Node) :
    (conditions.filterMap Condition.relationStep?).foldlM (runStep (.table t) q) nodes =
      .ok (nodes.filter fun n =>
        (conditions.filter Condition.isRelated).all (Condition.means t.rows n)) := by
  induction conditions generalizing nodes with
  | nil => exact congrArg Except.ok (List.filter_eq_self.mpr fun _ _ => rfl).symm
  | cons c rest ih =>
      rcases c with ⟨name, op, value⟩ | ⟨relation, target⟩
      · exact ih nodes
      · have hstep : runStep (.table t) q nodes (.relationFilter relation target) =
            .ok (nodes.filter fun n => t.rows.relates n.id relation target) :=
          retain_eq fun n _ => hasRelation_eq hstate hdecodes n relation target
        -- The nodes that this step keeps are those that the steps behind it see.
        show (runStep (.table t) q nodes (.relationFilter relation target) >>= fun kept =>
          (rest.filterMap Condition.relationStep?).foldlM (runStep (.table t) q) kept) = _
        rw [hstep]
        refine (ih _).trans (congrArg Except.ok ?_)
        rw [List.filter_filter]
        congr 1
        funext n
        simp [Condition.isRelated, Condition.means, Bool.and_comm]

/-- What is asked of a node in the end, where a condition is joined by OR: all of it. -/
theorem holdsInProcess_of_hasOr {q : Query} (h : q.hasOr = true) (n : Node) :
    holdsInProcess (.table t) q n = .ok (q.selects t.rows n) := by
  unfold holdsInProcess selects
  cases hconditions : q.conditions with
  | none => rfl
  | some cs =>
      have hor : cs.hasOr = true := by simpa [hasOr, hconditions] using h
      simp only [hor, if_true]
      exact Conditions.fold_eq (Condition.holds_eq hstate hdecodes n) cs

/-- What is asked of a node in the end, where all conditions must hold: the comparisons by
LIKE. -/
theorem holdsInProcess_of_not_hasOr {q : Query} (h : q.hasOr = false) (n : Node) :
    holdsInProcess (.table t) q n =
      .ok ((q.conditionList.filter Condition.isLike).all (Condition.means t.rows n)) := by
  unfold holdsInProcess conditionList
  cases hconditions : q.conditions with
  | none => rfl
  | some cs =>
      have hor : cs.hasOr = false := by simpa [hasOr, hconditions] using h
      -- No comparison fails on rows that can be read, so the loop is a fold without failures.
      have hfold : (cs.toList.filter Condition.isLike).foldlM
          (fun acc c => do pure (acc && (← c.holds (.table t) n))) true =
            (pure ((cs.toList.filter Condition.isLike).foldl
              (fun acc c => acc && c.means t.rows n) true) : Outcome Bool) := by
        rw [← List.foldlM_pure]
        congr 1
        funext acc c
        rw [Condition.holds_eq hstate hdecodes]
        rfl
      simp only [hor, Bool.false_eq_true, if_false]
      rw [hfold, foldl_and, Bool.true_and]
      rfl

/-- What a plan leaves where a condition is joined by OR. -/
theorem runPlan_of_hasOr {q : Query} {kind : NodeKind} (hor : q.hasOr = true)
    (hbound : t.rows.nodeCount (some kind) ≤ scanLimit) :
    runPlan (.table t) q (q.plan kind) =
      .ok ((t.rows.nodeList (some kind)).filter (q.selects t.rows)) := by
  have hplan : q.plan kind = [.kindScan kind, .conditionFilter q.conditionList.length] := by
    simp [plan, hor]
  have hscan : runStep (.table t) q [] (.kindScan kind) = .ok (t.rows.nodeList (some kind)) := by
    refine (scan_eq hstate hdecodes t.rows.admits_nil hbound).trans (congrArg Except.ok ?_)
    exact List.filter_eq_self.mpr fun _ _ => rfl
  have hfold : ∀ nodes count, runStep (.table t) q nodes (.conditionFilter count) =
      .ok (nodes.filter (q.selects t.rows)) := fun nodes count =>
    retain_eq fun n _ => holdsInProcess_of_hasOr hstate hdecodes hor n
  rw [hplan, runPlan, List.foldlM_cons, hscan]
  show (runStep (.table t) q _ _ >>= _) = _
  rw [hfold]
  rfl

/-- What a plan leaves where all conditions must hold. -/
theorem runPlan_of_not_hasOr {q : Query} {kind : NodeKind} (hor : q.hasOr = false)
    (hadmits : t.rows.Admits (q.conditionList.filterMap Condition.pushed?))
    (hbound : t.rows.nodeCount (some kind) ≤ scanLimit) :
    runPlan (.table t) q (q.plan kind) =
      .ok ((t.rows.nodeList (some kind)).filter (q.selects t.rows)) := by
  let pushed : Filter := q.conditionList.filterMap Condition.pushed?
  let likes := q.conditionList.countP Condition.isLike
  have hall : ∀ n, q.selects t.rows n = q.conditionList.all (Condition.means t.rows n) := by
    intro n
    unfold selects conditionList
    cases hconditions : q.conditions with
    | none => rfl
    | some cs =>
        exact Conditions.joinLeft_of_not_hasOr (by simpa [hasOr, hconditions] using hor) _
  -- Each condition belongs to one of three sorts, and the plan has a step for each sort.
  have hselects : ∀ n, q.selects t.rows n =
      (pushed.accepts n &&
        (q.conditionList.filter Condition.isRelated).all (Condition.means t.rows n) &&
          (q.conditionList.filter Condition.isLike).all (Condition.means t.rows n)) := by
    intro n
    rw [hall, all_eq_sorts, accepts_pushed t.rows]
  have hplan : q.plan kind =
      (if pushed.isEmpty then Step.kindScan kind else .filteredScan kind pushed) ::
        (q.conditionList.filterMap Condition.relationStep? ++
          if likes = 0 then [] else [.conditionFilter likes]) := by
    simp [plan, hor, planAll, pushed, likes]
  have hscan : runStep (.table t) q []
      (if pushed.isEmpty then Step.kindScan kind else .filteredScan kind pushed) =
        .ok ((t.rows.nodeList (some kind)).filter pushed.accepts) := by
    split
    · rename_i hempty
      have hnil : pushed = [] := List.isEmpty_iff.mp hempty
      rw [hnil]
      exact scan_eq hstate hdecodes t.rows.admits_nil hbound
    · exact scan_eq hstate hdecodes hadmits hbound
  have hlikes : ∀ nodes : List Node, List.foldlM (runStep (.table t) q) nodes
      (if likes = 0 then [] else [.conditionFilter likes]) =
        .ok (nodes.filter fun n =>
          (q.conditionList.filter Condition.isLike).all (Condition.means t.rows n)) := by
    intro nodes
    split
    · rename_i hzero
      have hnil : q.conditionList.filter Condition.isLike = [] :=
        List.length_eq_zero_iff.mp (List.countP_eq_length_filter ▸ hzero)
      rw [hnil]
      exact congrArg Except.ok (List.filter_eq_self.mpr fun _ _ => rfl).symm
    · have hstep : runStep (.table t) q nodes (.conditionFilter likes) = .ok _ :=
        retain_eq fun n _ => holdsInProcess_of_not_hasOr hstate hdecodes hor n
      rw [List.foldlM_cons, hstep]
      rfl
  rw [hplan, runPlan, List.foldlM_cons, hscan]
  show List.foldlM (runStep (.table t) q) _ (_ ++ _) = _
  rw [List.foldlM_append, relationSteps_eq hstate hdecodes]
  refine (hlikes _).trans (congrArg Except.ok ?_)
  rw [List.filter_filter, List.filter_filter]
  congr 1
  funext n
  rw [hselects]
  ac_rfl

/-- **Every plan selects what the query means.** -/
theorem runPlan_eq {q : Query} {kind : NodeKind}
    (hadmits : t.rows.Admits (q.conditionList.filterMap Condition.pushed?))
    (hbound : t.rows.nodeCount (some kind) ≤ scanLimit) :
    runPlan (.table t) q (q.plan kind) =
      .ok ((t.rows.nodeList (some kind)).filter (q.selects t.rows)) := by
  cases hor : q.hasOr with
  | true => exact runPlan_of_hasOr hstate hdecodes hor hbound
  | false => exact runPlan_of_not_hasOr hstate hdecodes hor hadmits hbound

end Table

/-- **The answer to a query over rows.** -/
theorem answer_table {t : Table} {q : Query} {kind : NodeKind} (hstate : t.state.IsReadable)
    (hdecodes : t.rows.Decodes) (hkind : NodeKind.ofText? q.kind = some kind)
    (hbound : t.rows.nodeCount (some kind) ≤ scanLimit)
    (hadmits : t.rows.Admits (q.conditionList.filterMap Condition.pushed?)) :
    ∃ found : List Node,
      (found.Pairwise fun a b => utf8 a.id < utf8 b.id) ∧
      (∀ n, n ∈ found ↔ t.rows.HoldsNode n ∧ n.kind = kind ∧ q.selects t.rows n = true) ∧
      answerChecked (.table t) none q =
        .ok ⟨let rest := found.drop (q.offset.getD 0)
          q.limit.elim rest rest.take, found.length, q.plan kind⟩ := by
  refine ⟨(t.rows.nodeList (some kind)).filter (q.selects t.rows), ?_, fun n => ?_, ?_⟩
  · refine List.Pairwise.filter _ ((t.rows.pairwise_nodeList _).imp fun h => utf8_lt_utf8.mpr h)
  · rw [List.mem_filter, Rows.mem_nodeList, and_assoc]
    simp
  · have hanswer : answerChecked (.table t) none q = answer (.table t) q := rfl
    rw [hanswer, answer, hkind]
    simp only [runPlan_eq hstate hdecodes hadmits hbound]
    rfl

/-- Two modules, of which one refers to the other. -/
def pairOfModules : Table :=
  .ofRows .inMemory (((Rows.empty.putNode (.ofCore "module:a" (.module "a" "m.a"))).putNode
    (.ofCore "module:b" (.module "b" "m.b"))).putEdge
      (.ofCore "module:a" "module:b" (.plain .references)))

/-- Asks for modules below `m` with a name like `A` that refer to `b`. -/
def referrers : Query where
  kind := "Module"
  asName := none
  conditions := some ⟨.attribute "qualified_name" (.compare .ge) (.text "m."),
    [(.and, .attribute "name" .like (.text "A")), (.and, .related .references ":b")]⟩
  limit := some 10
  offset := none

theorem answer_table_pairOfModules :
    ∃ found : List Node,
      (found.Pairwise fun a b => utf8 a.id < utf8 b.id) ∧
      (∀ n, n ∈ found ↔ pairOfModules.rows.HoldsNode n ∧ n.kind = .module ∧
        referrers.selects pairOfModules.rows n = true) ∧
      answerChecked (.table pairOfModules) none referrers =
        .ok ⟨found.take 10, found.length, referrers.plan .module⟩ :=
  answer_table (.inl rfl) (by decide +kernel) (by decide +kernel) (by decide +kernel)
    (by decide +kernel)

end Query

end ProgramGraph
