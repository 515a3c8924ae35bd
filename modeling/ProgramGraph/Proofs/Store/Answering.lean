import ProgramGraph.Proofs.Store.KeyedReading
import ProgramGraph.Proofs.Store.Loading

set_option autoImplicit false

/-! # What the answers of a keyed store depend on

Every key that a keyed store looks up, and every scan that it makes, begins with the root of the store
and a colon. So two byte maps that agree on the keys with this beginning (`ByteMap.AgreesFor`) give the
same answers (`Keyed.answersAlike_of_agreesFor`), whatever else is in them.

A load is the one answer where more has to be said. It takes the size of the whole map as the bound on
its steps. This bound is never reached: every edge that is read stands in an entry of its own, and so
all that can be met is read within the bound (`RecordReader.load_eq_of_isBounded`).
-/

namespace ProgramGraph

open ProgramGraph.Text

/-! ## The keys of a store -/

namespace KeyLayout

variable {layout : KeyLayout} {key : Bytes}

/-- The key is one that the store may have. -/
def Owns (layout : KeyLayout) (key : Bytes) : Prop := layout.start [] <+: key

/-- What has parts behind the root is a key of the store, -/
theorem owns_key (layout : KeyLayout) {parts : List String} (h : parts ≠ []) :
    layout.Owns (layout.key parts) :=
  Slot.start_isPrefix_key_append [] h

/-- and so is what a scan by parts finds. -/
theorem owns_of_start {parts : List String} (h : layout.start parts <+: key) : layout.Owns key := by
  obtain ⟨more, hmore⟩ := marked_append_colon parts
  have hstart : layout.start [] <+: layout.start parts := by
    rw [start_eq, start_eq, List.prefix_append_right_inj, hmore]
    exact ⟨more, rfl⟩
  exact hstart.trans h

end KeyLayout

/-! ## Maps that agree on the keys of a store -/

namespace ByteMap

variable {layout : KeyLayout} {m m' : ByteMap}

/-- The maps have the same entries under the keys of a store. -/
def AgreesFor (layout : KeyLayout) (m m' : ByteMap) : Prop :=
  ∀ key : Bytes, layout.Owns key → m[key]? = m'[key]?

namespace AgreesFor

theorem refl (layout : KeyLayout) (m : ByteMap) : AgreesFor layout m m := fun _ _ => rfl

theorem of_equiv (h : m.Equiv m') : AgreesFor layout m m' := fun _ _ => h.getElem?_eq

/-- **A scan by parts** finds the same in both. -/
theorem scan_eq (h : AgreesFor layout m m') (parts : List String) :
    m.scan (layout.start parts) = m'.scan (layout.start parts) := by
  let found (entries : ByteMap) : ByteMap :=
    entries.filter fun key _ => (layout.start parts).isPrefixOf key
  have hequiv : (found m).Equiv (found m') := by
    apply Std.TreeMap.Equiv.of_forall_constGet?_eq
    intro key
    rw [Std.TreeMap.getElem?_filter', Std.TreeMap.getElem?_filter']
    by_cases hkey : layout.start parts <+: key
    · rw [h key (KeyLayout.owns_of_start hkey)]
    · -- The key is not found, whatever its entry.
      have hnot : (layout.start parts).isPrefixOf key = false := by
        rwa [← Bool.not_eq_true, List.isPrefixOf_iff_prefix]
      cases m[key]? <;> cases m'[key]? <;> simp [hnot]
  calc m.scan (layout.start parts)
      = (found m).toList := by rw [scan_eq_filter, Std.TreeMap.toList_filter]
    _ = (found m').toList := hequiv.toList_eq
    _ = m'.scan (layout.start parts) := by rw [scan_eq_filter, Std.TreeMap.toList_filter]

end AgreesFor

end ByteMap

/-! ## Loading within different bounds -/

namespace RecordReader

variable {r r' : RecordReader} {root : String} {maxDepth : Nat}

/-- An edge that is read leads to the node. -/
def Reaches (r : RecordReader) (id : String) : Prop :=
  ∃ a edges e, r.edgesFrom a = .ok edges ∧ e ∈ edges ∧ e.target = id

/-- The bound of the reader holds for what edges lead to. -/
def IsBounded (r : RecordReader) : Prop :=
  ∀ {ids : List String}, ids.Nodup → (∀ id ∈ ids, r.Reaches id) → ids.length ≤ r.edgeBound

/-- What has been met on the way from a root: no identifier twice, and each has been seen. -/
structure Meets (r : RecordReader) (root : String) (met : List String) (seen : Std.TreeSet String) :
    Prop where
  nodup : met.Nodup
  reaches : ∀ id ∈ met, id = root ∨ r.Reaches id
  seen : ∀ id ∈ met, id ∈ seen

namespace Meets

variable {met : List String} {seen : Std.TreeSet String}

/-- At the beginning the root is met. -/
theorem start (r : RecordReader) (root : String) :
    r.Meets root [root] ((∅ : Std.TreeSet String).insert root) where
  nodup := List.nodup_singleton root
  reaches id hid := .inl (List.mem_singleton.mp hid)
  seen id hid := by
    rw [List.mem_singleton.mp hid]
    exact Std.TreeSet.mem_insert_self

/-- No more is met than the root and what edges lead to. -/
theorem length_le (h : r.Meets root met seen) (hr : r.IsBounded) : met.length ≤ r.edgeBound + 1 := by
  have hrest : (met.erase root).length ≤ r.edgeBound := by
    apply hr (h.nodup.erase root)
    intro id hid
    obtain ⟨hne, hmet⟩ := h.nodup.mem_erase_iff.mp hid
    exact (h.reaches id hmet).resolve_left hne
  have herase : met.length - 1 ≤ (met.erase root).length := by
    rw [List.length_erase]
    split <;> omega
  omega

/-- What is met depends on the edges that are read. -/
theorem of_edgesFrom_eq (h : r.Meets root met seen) (hedgesFrom : r'.edgesFrom = r.edgesFrom) :
    r'.Meets root met seen where
  nodup := h.nodup
  reaches id hid := by
    unfold Reaches
    rw [hedgesFrom]
    exact h.reaches id hid
  seen := h.seen

/-- What joins the queue was not met before. -/
theorem join (h : r.Meets root met seen) {id : String} {leaving : List Edge}
    (hleaving : r.edgesFrom id = .ok leaving) (maxDepth depth : Nat) :
    r.Meets root (met ++ (joining maxDepth depth seen (leaving.map Edge.target)).1)
      (joining maxDepth depth seen (leaving.map Edge.target)).2 := by
  unfold joining
  split
  · constructor
    case nodup =>
      apply h.nodup.append Graph.nodup_discover
      intro b hmet hfresh
      exact (Graph.mem_discover.mp hfresh).2 (h.seen b hmet)
    case reaches =>
      intro b hb
      rcases List.mem_append.mp hb with hmet | hfresh
      · exact h.reaches b hmet
      · obtain ⟨e, he, htarget⟩ := List.mem_map.mp (Graph.mem_discover.mp hfresh).1
        exact .inr ⟨id, leaving, e, hleaving, he, htarget⟩
    case seen =>
      intro b hb
      apply Graph.mem_discover_seen.mpr
      rcases List.mem_append.mp hb with hmet | hfresh
      · exact .inl (h.seen b hmet)
      · exact .inr (Graph.mem_discover.mp hfresh).1
  · rwa [List.append_nil]

end Meets

variable {steps steps' d : Nat} {id : String} {queue : List (String × Nat)} {met : List String}
  {seen : Std.TreeSet String}

theorem collect_nil (r : RecordReader) (maxDepth steps : Nat) (seen : Std.TreeSet String) :
    r.collect maxDepth steps [] seen = .ok ([], []) := by
  cases steps <;> rfl

theorem collect_cons_unread {failure : Failure} (hid : r.node? id = .error failure) :
    r.collect maxDepth (steps + 1) ((id, d) :: queue) seen = .error failure := by
  rw [collect, hid]
  rfl

theorem collect_cons_noEdges {n : Node} {failure : Failure} (hid : r.node? id = .ok (some n))
    (hedges : r.edgesFrom id = .error failure) :
    r.collect maxDepth (steps + 1) ((id, d) :: queue) seen = .error failure := by
  rw [collect, hid]
  show (r.edgesFrom id >>= _) = _
  rw [hedges]
  rfl

/-- **Enough steps.** Two readers that read the same records collect the same, if each may take so many
steps that all that can be met gets its turn. -/
theorem collect_eq_of_isBounded (hnode? : r'.node? = r.node?) (hedgesFrom : r'.edgesFrom = r.edgesFrom)
    (hr : r.IsBounded) (hr' : r'.IsBounded) (h : r.Meets root met seen)
    (hsteps : r.edgeBound + 1 + queue.length ≤ met.length + steps)
    (hsteps' : r'.edgeBound + 1 + queue.length ≤ met.length + steps') :
    r.collect maxDepth steps queue seen = r'.collect maxDepth steps' queue seen := by
  -- The induction is on the steps of the one reader; the bounds make the other one keep up.
  induction steps generalizing steps' queue met seen with
  | zero =>
      have hlength := h.length_le hr
      obtain rfl : queue = [] := List.eq_nil_of_length_eq_zero (by omega)
      rw [collect_nil, collect_nil]
  | succ steps ih =>
      match queue with
      | [] => rw [collect_nil, collect_nil]
      | (id, d) :: queue =>
          have hlength := (h.of_edgesFrom_eq hedgesFrom).length_le hr'
          rw [List.length_cons] at hsteps hsteps'
          obtain ⟨more, rfl⟩ : ∃ more, steps' = more + 1 := ⟨steps' - 1, by omega⟩
          cases hid : r.node? id with
          | error failure => rw [collect_cons_unread hid, collect_cons_unread (hnode? ▸ hid)]
          | ok found =>
              cases found with
              | none =>
                  rw [collect_cons_none hid, collect_cons_none (hnode? ▸ hid)]
                  exact ih h (by omega) (by omega)
              | some n =>
                  cases hleaving : r.edgesFrom id with
                  | error failure =>
                      rw [collect_cons_noEdges hid hleaving,
                        collect_cons_noEdges (hnode? ▸ hid) (hedgesFrom ▸ hleaving)]
                  | ok leaving =>
                      let joined := joining maxDepth d seen (leaving.map Edge.target)
                      have hqueue : (queue ++ joined.1.map (·, d + 1)).length = queue.length + joined.1.length := by
                        rw [List.length_append, List.length_map]
                      have hmet : (met ++ joined.1).length = met.length + joined.1.length := List.length_append
                      have hrest : r.collect maxDepth steps (queue ++ joined.1.map (·, d + 1)) joined.2 =
                          r'.collect maxDepth more (queue ++ joined.1.map (·, d + 1)) joined.2 :=
                        ih (h.join hleaving maxDepth d) (by rw [hqueue, hmet]; omega) (by rw [hqueue, hmet]; omega)
                      rw [collect_cons_some hid hleaving,
                        collect_cons_some (hnode? ▸ hid) (hedgesFrom ▸ hleaving), hrest]

/-- **Loads** by readers that read the same records come to the same, whatever the bounds. -/
theorem load_eq_of_isBounded (hnode? : r'.node? = r.node?) (hedgesFrom : r'.edgesFrom = r.edgesFrom)
    (hr : r.IsBounded) (hr' : r'.IsBounded) (root : String) (maxDepth : Nat) :
    r.load root maxDepth = r'.load root maxDepth := by
  have hcollect : r.collect maxDepth (r.edgeBound + 1) [(root, 0)] ((∅ : Std.TreeSet String).insert root) =
      r'.collect maxDepth (r'.edgeBound + 1) [(root, 0)] ((∅ : Std.TreeSet String).insert root) := by
    apply collect_eq_of_isBounded hnode? hedgesFrom hr hr' (Meets.start r root)
    all_goals
      rw [List.length_singleton, List.length_singleton]
      omega
  rw [load, load, hcollect]

end RecordReader

/-! ## Stores that answer alike -/

namespace Keyed

/-- The stores answer every question alike. -/
structure AnswersAlike (a b : Keyed) : Prop where
  node? : ∀ id, a.node? id = b.node? id
  node : ∀ id, a.node id = b.node id
  hasNode : ∀ id, a.hasNode id = b.hasNode id
  findNodes : ∀ kind filter limit offset,
    a.findNodes kind filter limit offset = b.findNodes kind filter limit offset
  edgesFrom : ∀ source target kind, a.edgesFrom source target kind = b.edgesFrom source target kind
  edgesTo : ∀ target kind, a.edgesTo target kind = b.edgesTo target kind
  nodeCount : ∀ kind, a.nodeCount kind = b.nodeCount kind
  edgeCount : ∀ kind, a.edgeCount kind = b.edgeCount kind
  statistics : a.statistics = b.statistics
  loadGraph : ∀ root maxDepth, a.loadGraph root maxDepth = b.loadGraph root maxDepth

/-- The reader of a store has no more to read than there are entries. -/
theorem isBounded_reader (k : Keyed) : k.reader.IsBounded := fun hnodup hids =>
  length_targets_le hnodup hids

/-- **Stores with the same entries under their keys answer alike**, at one moment. -/
theorem answersAlike_of_agreesFor (k : Keyed) {m m' : ByteMap} (h : m.AgreesFor k.layout m') :
    AnswersAlike { k with entries := m } { k with entries := m' } := by
  generalize ha : ({ k with entries := m } : Keyed) = a
  generalize hb : ({ k with entries := m' } : Keyed) = b
  have hlayout : a.layout = b.layout := by rw [← ha, ← hb]; rfl
  -- All reading goes through two functions: one looks up a key, the other scans.
  have hlive : ∀ parts, parts ≠ [] → a.live? (a.layout.key parts) = b.live? (b.layout.key parts) := by
    intro parts hparts
    rw [← ha, ← hb]
    show m[k.layout.key parts]?.bind _ = m'[k.layout.key parts]?.bind _
    rw [h _ (k.layout.owns_key hparts)]
  have hunder : ∀ parts, a.liveUnder (a.layout.start parts) = b.liveUnder (b.layout.start parts) := by
    intro parts
    rw [← ha, ← hb]
    show (m.scan (k.layout.start parts)).filterMap _ = (m'.scan (k.layout.start parts)).filterMap _
    rw [h.scan_eq]
  have hliveNode : ∀ id, a.live? (a.layout.node id) = b.live? (b.layout.node id) := fun id =>
    hlive ["node", id] (List.cons_ne_nil _ _)
  have hnode? : a.node? = b.node? := by
    funext id
    rw [node?, node?, hliveNode]
  have hnode : ∀ id, a.node id = b.node id := fun id => by rw [node, node, hnode?]
  have hedgesUnder : ∀ parts,
      a.edgesUnder (a.layout.start parts) = b.edgesUnder (b.layout.start parts) := fun parts => by
    rw [edgesUnder, edgesUnder, hunder]
  have hedges : a.edgesFrom = b.edgesFrom := by
    funext source target kind
    rw [edgesFrom, edgesFrom, hedgesUnder]
  have hnodes : a.nodeCount = b.nodeCount := by
    funext kind
    rw [nodeCount, nodeCount, hunder]
  have hrelations : a.edgeCount = b.edgeCount := by
    funext kind
    rw [edgeCount, edgeCount, hunder]
  have hids : a.idsOfKind = b.idsOfKind := by
    funext kind
    simp only [idsOfKind, hunder]
    rw [hlayout]
  constructor
  case node? => exact fun id => by rw [hnode?]
  case node => exact hnode
  case hasNode => exact fun id => by rw [hasNode, hasNode, hliveNode]
  case findNodes =>
    intro kind filter limit offset
    rw [findNodes_eq_mapM, findNodes_eq_mapM, sortedIds, sortedIds, hids]
    simp only [hliveNode]
  case edgesFrom => exact fun source target kind => by rw [hedges]
  case edgesTo => exact fun target kind => by rw [edgesTo, edgesTo, hedgesUnder]
  case nodeCount => exact fun kind => by rw [hnodes]
  case edgeCount => exact fun kind => by rw [hrelations]
  case statistics => rw [statistics, statistics, hnodes, hrelations]
  case loadGraph =>
    intro root maxDepth
    apply RecordReader.load_eq_of_isBounded _ _ a.isBounded_reader b.isBounded_reader
    · exact hnode?.symm
    · funext id
      show b.edgesFrom id none none = a.edgesFrom id none none
      rw [hedges]

theorem answersAlike_of_equiv (k : Keyed) {m m' : ByteMap} (h : m.Equiv m') :
    AnswersAlike { k with entries := m } { k with entries := m' } :=
  answersAlike_of_agreesFor k (.of_equiv h)

end Keyed

end ProgramGraph
