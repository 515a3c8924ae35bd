import Mathlib.Data.List.Nodup
import ProgramGraph.Proofs.Graph.Index
import ProgramGraph.Proofs.Store.TableContent
import ProgramGraph.Sync.Fragment

set_option autoImplicit false

/-! # The fragment of a file is a closure

The own nodes of a file are the least set that has the node of the file, and with a node every node
of the file that a stored edge from it reaches (`Content.IsOwn`). The fragment has these nodes, the
stored edges that leave them and do not dangle, and the targets of these edges; nothing is asked of
the content, which may have cycles, edges that dangle and nodes of other files.

A search takes each own node once: a node that the file owns is put on top of those still to do when
it is found, no matter which edge reaches it, and nothing that is found is put there again. Each step
takes one node off, and puts one on only if it finds a target that was missing, so as many steps are
enough as there are stored edges.
-/

namespace ProgramGraph

/-! ## What belongs to the fragment -/

namespace Content

variable (c : Content) (path : String)

/-- The node is that of the file, or the file owns it and a stored edge reaches it from an own node. -/
inductive IsOwn : String → Prop where
  | file (h : c.hasNode (nodeId .file path none) = true) : IsOwn (nodeId .file path none)
  | owned {key : EdgeKey} {n : Node} (hsource : IsOwn key.source) (hkey : c.hasEdge key = true)
      (hn : c.node? key.target = some n) (howned : n.isOwnedBy path = true) : IsOwn key.target

/-- The stored edge leaves an own node, and its target exists. -/
structure HasOwnEdge (key : EdgeKey) : Prop where
  source : c.IsOwn path key.source
  stored : c.hasEdge key = true
  target : c.hasNode key.target = true

/-- The node is an own one, or the target of an edge that leaves one. -/
def InFragment (id : String) : Prop :=
  c.IsOwn path id ∨ ∃ key, c.HasOwnEdge path key ∧ key.target = id

/-- The graph has the own nodes, their edges and the targets of these, all as they are stored. -/
structure IsFragment (g : Graph) : Prop where
  indexed : g.IsIndexed
  node?_iff : ∀ id n, g.node? id = some n ↔ c.node? id = some n ∧ c.InFragment path id
  edge?_iff : ∀ key e, g.edge? key = some e ↔ c.edge? key = some e ∧ c.HasOwnEdge path key

variable {c path} {id : String}

theorem hasNode_iff : c.hasNode id = true ↔ ∃ n, c.node? id = some n := Option.isSome_iff_exists

theorem hasEdge_iff {key : EdgeKey} : c.hasEdge key = true ↔ ∃ e, c.edge? key = some e :=
  Option.isSome_iff_exists

/-- The node of the file is there if anything is. -/
theorem IsOwn.hasNode_file (h : c.IsOwn path id) : c.hasNode (nodeId .file path none) = true := by
  induction h with
  | file h => exact h
  | owned _ _ _ _ ih => exact ih

theorem IsOwn.hasNode (h : c.IsOwn path id) : c.hasNode id = true := by
  cases h with
  | file h => exact h
  | owned _ _ hn _ => exact hasNode_iff.mpr ⟨_, hn⟩

/-- All own nodes but that of the file are owned by it. -/
theorem IsOwn.isOwnedBy (h : c.IsOwn path id) (hfile : id ≠ nodeId .file path none) {n : Node}
    (hn : c.node? id = some n) : n.isOwnedBy path = true := by
  cases h with
  | file _ => exact absurd rfl hfile
  | owned _ _ hm howned =>
      obtain rfl := Option.some.inj (hm.symm.trans hn)
      exact howned

theorem InFragment.hasNode (h : c.InFragment path id) : c.hasNode id = true := by
  rcases h with h | ⟨key, hkey, rfl⟩
  · exact h.hasNode
  · exact hkey.target

/-- A node of the fragment that the file owns is an own node. -/
theorem InFragment.isOwn (h : c.InFragment path id) {n : Node} (hn : c.node? id = some n)
    (howned : n.isOwnedBy path = true) : c.IsOwn path id := by
  rcases h with h | ⟨key, hkey, rfl⟩
  · exact h
  · exact .owned hkey.source hkey.stored hn howned

/-- Without the node of the file there is nothing. -/
theorem isFragment_empty (h : c.hasNode (nodeId .file path none) = false) : c.IsFragment path ∅ := by
  -- every chain of own nodes begins at the node of the file
  have hnone : ∀ {id}, ¬c.IsOwn path id := fun hid => by
    have hfile := hid.hasNode_file
    rw [h] at hfile
    cases hfile
  constructor
  case indexed => exact Graph.isIndexed_empty
  case node?_iff =>
    intro id n
    constructor
    · exact fun hn => nomatch hn
    · rintro ⟨-, hid | ⟨key, hkey, -⟩⟩
      · exact absurd hid hnone
      · exact absurd hkey.source hnone
  case edge?_iff =>
    intro key e
    constructor
    · exact fun he => nomatch he
    · exact fun he => absurd he.2.source hnone

end Content

namespace Graph

/-- The number of targets that have not been found. -/
def missing (g : Graph) (targets : List String) : Nat :=
  (targets.filter fun id => !g.hasNode id).length

theorem missing_le_length (g : Graph) (targets : List String) : g.missing targets ≤ targets.length :=
  List.length_filter_le _ _

theorem missing_congr {g g' : Graph} (h : ∀ id, g'.hasNode id = g.hasNode id) (targets : List String) :
    g'.missing targets = g.missing targets := by
  simp only [missing, h]

theorem missing_cons (g : Graph) (id : String) (rest : List String) :
    g.missing (id :: rest) = g.missing rest + if g.hasNode id then 0 else 1 := by
  rw [missing, List.filter_cons]
  cases g.hasNode id <;> rfl

theorem missing_addNode_le (g : Graph) (n : Node) (targets : List String) :
    (g.addNode n).missing targets ≤ g.missing targets := by
  induction targets with
  | nil => exact Nat.le_refl 0
  | cons id rest ih =>
      rw [missing_cons, missing_cons]
      by_cases hold : g.hasNode id = true
      · rw [(Extends.addNode g n).hasNode hold, hold]
        exact Nat.add_le_add_right ih _
      · rw [if_neg hold]
        split <;> omega

/-- A target that is found is no longer missing. -/
theorem missing_addNode_lt {g : Graph} {n : Node} {targets : List String} (hmem : n.id ∈ targets)
    (hnew : g.hasNode n.id = false) : (g.addNode n).missing targets < g.missing targets := by
  induction targets with
  | nil => cases hmem
  | cons id rest ih =>
      rw [missing_cons, missing_cons]
      by_cases hid : id = n.id
      · have hrest := missing_addNode_le g n rest
        rw [hid, hnew, hasNode_addNode, decide_eq_true rfl, Bool.true_or, if_pos rfl, if_neg Bool.false_ne_true]
        omega
      · have hrest := ih (by simpa [Ne.symm hid] using hmem)
        rw [hasNode_addNode, decide_eq_false hid, Bool.false_or]
        omega

end Graph

/-! ## The search -/

namespace Store

/-- The search as it goes on until nothing is left to do. It takes the nodes `ids`, in this order, and
looks at the edges of each. -/
inductive Searches (s : Store) (path : String) : Graph × List String → List String → Graph → Prop where
  | ended (whole : Graph) : Searches s path (whole, []) [] whole
  | take {g whole : Graph} {id : String} {todo ids : List String} {edges : List Edge}
      {next : Graph × List String} (hfrom : s.edgesFrom id none none = .ok edges)
      (hadd : s.addEdgesOf path (g, todo) edges = .ok next) (hrest : Searches s path next ids whole) :
      Searches s path (g, id :: todo) (id :: ids) whole

variable {s : Store} {c : Content} {path : String}

/-- Steps for all the nodes that the search takes are enough. -/
theorem Searches.growFragment_eq {start : Graph × List String} {ids : List String} {whole : Graph}
    (h : Searches s path start ids whole) {steps : Nat} (hsteps : ids.length ≤ steps) :
    s.growFragment path steps start = .ok whole := by
  induction h generalizing steps with
  | ended => cases steps <;> rfl
  | @take g _ id todo ids edges next hfrom hadd hrest ih =>
      obtain ⟨steps, rfl⟩ := Nat.exists_eq_add_one_of_ne_zero (Nat.ne_zero_of_lt hsteps)
      show (do
        let edges ← s.edgesFrom id none none
        s.growFragment path steps (← s.addEdgesOf path (g, todo) edges)) = _
      rw [hfrom]
      show (s.addEdgesOf path (g, todo) edges).bind (s.growFragment path steps) = _
      rw [hadd]
      exact ih (Nat.le_of_succ_le_succ hsteps)

/-- What the search has found: `taken` are the nodes whose edges have been looked at, or are being
looked at, `todo` those still to do, and `pending` the edges being looked at. -/
structure Growing (c : Content) (path : String) (found : Graph) (taken todo : List String)
    (pending : List Edge) : Prop where
  indexed : found.IsIndexed
  file : found.hasNode (nodeId .file path none) = true
  nodes : ∀ {id n}, found.node? id = some n → c.node? id = some n ∧ c.InFragment path id
  edges : ∀ {key e}, found.edge? key = some e → c.edge? key = some e ∧ c.HasOwnEdge path key
  own : ∀ {id}, id ∈ taken ++ todo ↔ c.IsOwn path id ∧ found.hasNode id = true
  nodup : (taken ++ todo).Nodup
  leaving : ∀ {e}, e ∈ pending →
    c.edge? e.key = some e ∧ c.IsOwn path e.source ∧ found.hasNode e.source = true
  done : ∀ {key}, key.source ∈ taken → c.hasEdge key = true → c.hasNode key.target = true →
    (∃ e ∈ pending, e.key = key) ∨ found.hasEdge key = true

variable {found found' : Graph} {taken todo : List String} {e : Edge} {pending : List Edge}

/-- An edge between found nodes is looked at. -/
theorem Growing.join (h : Growing c path found taken todo (e :: pending)) (hadd : found.addEdge e = .ok found')
    (hjoins : Graph.Joins found e found') (htarget : found.hasNode e.target = true) :
    Growing c path found' taken todo pending := by
  obtain ⟨hstored, hown, -⟩ := h.leaving List.mem_cons_self
  obtain ⟨n, hn⟩ := Graph.hasNode_iff.mp htarget
  have hedge : c.HasOwnEdge path e.key :=
    ⟨hown, Content.hasEdge_iff.mpr ⟨e, hstored⟩, Content.hasNode_iff.mpr ⟨n, (h.nodes hn).1⟩⟩
  constructor
  case indexed => exact h.indexed.addEdge hadd
  case file => exact (hjoins.hasNode _).trans h.file
  case nodes => exact fun hm => h.nodes ((hjoins.node? _).symm.trans hm)
  case edges =>
    intro key d hd
    rcases hjoins.edge?_cases hd with ⟨rfl, rfl⟩ | hd
    · exact ⟨hstored, hedge⟩
    · exact h.edges hd
  case own =>
    intro id
    rw [h.own, hjoins.hasNode]
  case nodup => exact h.nodup
  case leaving =>
    intro d hd
    obtain ⟨hkey, hsource, hthere⟩ := h.leaving (List.mem_cons_of_mem _ hd)
    exact ⟨hkey, hsource, (hjoins.hasNode _).trans hthere⟩
  case done =>
    intro key hsource hkey hend
    rw [hjoins.hasEdge_iff]
    rcases h.done hsource hkey hend with ⟨d, hd, rfl⟩ | hfound
    · rcases List.mem_cons.mp hd with rfl | hd
      · exact .inr (.inl rfl)
      · exact .inl ⟨d, hd, rfl⟩
    · exact .inr (.inr hfound)

/-- An edge that dangles is passed over. -/
theorem Growing.skip (h : Growing c path found taken todo (e :: pending))
    (htarget : c.hasNode e.target = false) : Growing c path found taken todo pending where
  indexed := h.indexed
  file := h.file
  nodes := h.nodes
  edges := h.edges
  own := h.own
  nodup := h.nodup
  leaving hd := h.leaving (List.mem_cons_of_mem _ hd)
  done := by
    intro key hsource hkey hend
    rcases h.done hsource hkey hend with ⟨d, hd, rfl⟩ | hfound
    · rcases List.mem_cons.mp hd with rfl | hd
      · have hend : c.hasNode d.target = true := hend
        rw [htarget] at hend
        cases hend
      · exact .inl ⟨d, hd, rfl⟩
    · exact .inr hfound

/-- A node is found, and is still to do if the file owns it. -/
theorem Growing.find (h : Growing c path found taken todo pending) {n : Node} (hn : c.node? n.id = some n)
    (hincluded : c.InFragment path n.id) (hnew : found.hasNode n.id = false) :
    Growing c path (found.addNode n) taken (if n.isOwnedBy path then n.id :: todo else todo) pending := by
  have hext := Graph.Extends.addNode found n
  -- The node of the file was found first, so a new node is an own one only if the file owns it.
  have hown : c.IsOwn path n.id ↔ n.isOwnedBy path = true := by
    refine ⟨fun hown => hown.isOwnedBy (fun hfile => ?_) hn, fun howned => hincluded.isOwn hn howned⟩
    rw [hfile, h.file] at hnew
    cases hnew
  have hlacks : n.id ∉ taken ++ todo := fun hmem => by
    rw [(h.own.mp hmem).2] at hnew
    cases hnew
  constructor
  case indexed => exact h.indexed.addNode n
  case file => exact hext.hasNode h.file
  case nodes =>
    intro id m hm
    rcases Graph.node?_addNode_cases hm with ⟨rfl, rfl⟩ | hm
    · exact ⟨hn, hincluded⟩
    · exact h.nodes hm
  case edges => exact h.edges
  case own =>
    intro id
    rw [Graph.hasNode_addNode_iff]
    by_cases howned : n.isOwnedBy path = true
    · rw [if_pos howned, List.perm_middle.mem_iff, List.mem_cons, h.own]
      constructor
      · rintro (rfl | ⟨hid, hthere⟩)
        · exact ⟨hown.mpr howned, .inl rfl⟩
        · exact ⟨hid, .inr hthere⟩
      · rintro ⟨hid, rfl | hthere⟩
        · exact .inl rfl
        · exact .inr ⟨hid, hthere⟩
    · rw [if_neg howned, h.own]
      refine ⟨fun ⟨hid, hthere⟩ => ⟨hid, .inr hthere⟩, ?_⟩
      rintro ⟨hid, rfl | hthere⟩
      · exact absurd (hown.mp hid) howned
      · exact ⟨hid, hthere⟩
  case nodup =>
    split
    · exact List.nodup_middle.mpr (List.nodup_cons.mpr ⟨hlacks, h.nodup⟩)
    · exact h.nodup
  case leaving =>
    intro d hd
    obtain ⟨hkey, hsource, hthere⟩ := h.leaving hd
    exact ⟨hkey, hsource, hext.hasNode hthere⟩
  case done => exact h.done

/-- An edge is looked at. Its target is put on top of what is to do if it is found and the file owns it. -/
theorem Growing.step (hs : s.Shows c) {targets : List String}
    (htargets : ∀ key, c.hasEdge key = true → key.target ∈ targets)
    (h : Growing c path found taken todo (e :: pending)) :
    ∃ found' todo', (∀ rest, s.addEdgesOf path (found, todo) (e :: rest) =
        s.addEdgesOf path (found', todo') rest) ∧
      Growing c path found' taken todo' pending ∧
      todo'.length + found'.missing targets ≤ todo.length + found.missing targets := by
  obtain ⟨hstored, hown, hsource⟩ := h.leaving List.mem_cons_self
  have hkey : c.hasEdge e.key = true := Content.hasEdge_iff.mpr ⟨e, hstored⟩
  by_cases htarget : found.hasNode e.target = true
  · -- The target was found before, so nothing is put on the list.
    obtain ⟨joined, hadd, hjoins⟩ := Graph.addEdge_eq hsource htarget
    refine ⟨joined, todo, fun rest => ?_, h.join hadd hjoins htarget, ?_⟩
    · rw [Store.addEdgesOf, if_pos htarget, hadd]
      rfl
    · exact Nat.le_of_eq (congrArg (todo.length + ·) (Graph.missing_congr hjoins.hasNode targets))
  · cases hn : c.node? e.target with
    | none =>
        -- An edge to a node that is not stored is left out.
        have hnone : c.hasNode e.target = false := by rw [Content.hasNode, hn]; rfl
        refine ⟨found, todo, fun rest => ?_, h.skip hnone, Nat.le_refl _⟩
        rw [Store.addEdgesOf, if_neg htarget, hs.node?, hn]
        rfl
    | some n =>
        rw [Bool.not_eq_true] at htarget
        have hid : n.id = e.target := c.id_eq hn
        have hedge : c.HasOwnEdge path e.key := ⟨hown, hkey, Content.hasNode_iff.mpr ⟨n, hn⟩⟩
        have hfind := h.find (hid ▸ hn) (.inr ⟨e.key, hedge, hid.symm⟩) (hid ▸ htarget)
        have hthere : (found.addNode n).hasNode e.target = true :=
          Graph.hasNode_addNode_iff.mpr (.inl hid.symm)
        obtain ⟨joined, hadd, hjoins⟩ :=
          Graph.addEdge_eq ((Graph.Extends.addNode found n).hasNode hsource) hthere
        refine ⟨joined, if n.isOwnedBy path then n.id :: todo else todo, fun rest => ?_,
          hfind.join hadd hjoins hthere, ?_⟩
        · rw [Store.addEdgesOf, if_neg (by simp [htarget]), hs.node?, hn]
          show (do
            let joined ← (found.addNode n).addEdge e
            s.addEdgesOf path (joined, if n.isOwnedBy path then n.id :: todo else todo) rest) = _
          rw [hadd]
          rfl
        · -- The node is still to do at most, and no longer missing.
          have hmissing : (found.addNode n).missing targets < found.missing targets :=
            Graph.missing_addNode_lt (hid ▸ htargets e.key hkey) (hid ▸ htarget)
          have hlength : (if n.isOwnedBy path then n.id :: todo else todo).length ≤ todo.length + 1 := by
            split <;> simp
          rw [Graph.missing_congr hjoins.hasNode]
          omega

/-- **The edges of a node** are looked at one by one. -/
theorem Growing.addEdgesOf (hs : s.Shows c) {targets : List String}
    (htargets : ∀ key, c.hasEdge key = true → key.target ∈ targets)
    (h : Growing c path found taken todo pending) :
    ∃ found' todo', s.addEdgesOf path (found, todo) pending = .ok (found', todo') ∧
      Growing c path found' taken todo' [] ∧
      todo'.length + found'.missing targets ≤ todo.length + found.missing targets := by
  induction pending generalizing found todo with
  | nil => exact ⟨found, todo, rfl, h, Nat.le_refl _⟩
  | cons e rest ih =>
      obtain ⟨found', todo', hstep, hnext, hless⟩ := h.step hs htargets
      obtain ⟨last, waiting, hrun, hgrown, hless'⟩ := ih hnext
      exact ⟨last, waiting, (hstep rest).trans hrun, hgrown, Nat.le_trans hless' hless⟩

/-- A node still to do is taken, and the stored edges that leave it are looked at next. -/
theorem Growing.take {id : String} (h : Growing c path found taken (id :: todo) []) {keys : List EdgeKey}
    (hkeys : ∀ key, key ∈ keys ↔ c.hasEdge key = true ∧ key.source = id) :
    Growing c path found (taken ++ [id]) todo (keys.filterMap c.edge?) := by
  -- `taken ++ todo` stays the same list, only the border moves
  have hsplit : taken ++ id :: todo = (taken ++ [id]) ++ todo := by simp
  obtain ⟨hown, hthere⟩ := h.own.mp (List.mem_append_right taken List.mem_cons_self)
  constructor
  case indexed => exact h.indexed
  case file => exact h.file
  case nodes => exact h.nodes
  case edges => exact h.edges
  case own => exact fun {_} => hsplit ▸ h.own
  case nodup => exact hsplit ▸ h.nodup
  case leaving =>
    intro e he
    obtain ⟨key, hkey, hfound⟩ := List.mem_filterMap.mp he
    obtain rfl := c.key_eq hfound
    have hsource : e.source = id := ((hkeys e.key).mp hkey).2
    exact ⟨hfound, hsource ▸ hown, hsource ▸ hthere⟩
  case done =>
    intro key hsource hkey hend
    rcases List.mem_append.mp hsource with hsource | hid
    · rcases h.done hsource hkey hend with ⟨d, hd, -⟩ | hfound
      · cases hd
      · exact .inr hfound
    · obtain ⟨e, he⟩ := Content.hasEdge_iff.mp hkey
      have hmem : key ∈ keys := (hkeys key).mpr ⟨hkey, List.mem_singleton.mp hid⟩
      exact .inl ⟨e, List.mem_filterMap.mpr ⟨key, hmem, he⟩, c.key_eq he⟩

/-- **The search ends** and leaves nothing to do. -/
theorem Growing.searches (hs : s.Shows c) {targets : List String}
    (htargets : ∀ key, c.hasEdge key = true → key.target ∈ targets) {steps : Nat}
    (h : Growing c path found taken todo []) (hsteps : todo.length + found.missing targets ≤ steps) :
    ∃ ids whole, Searches s path (found, todo) ids whole ∧ Growing c path whole (taken ++ ids) [] [] ∧
      ids.length ≤ steps := by
  -- Each step takes one node off, and puts one on only if it finds a target that was missing.
  induction steps generalizing found taken todo with
  | zero =>
      obtain rfl : todo = [] := List.length_eq_zero_iff.mp (by omega)
      exact ⟨[], found, .ended found, (List.append_nil taken).symm ▸ h, Nat.le_refl 0⟩
  | succ steps ih =>
      cases todo with
      | nil => exact ⟨[], found, .ended found, (List.append_nil taken).symm ▸ h, Nat.zero_le _⟩
      | cons id todo =>
          obtain ⟨keys, hkeys, hfrom⟩ := hs.edgesFrom id none none
          have hmem : ∀ key, key ∈ keys ↔ c.hasEdge key = true ∧ key.source = id := fun key => by
            rw [hkeys.mem_iff]
            simp [Content.HasEdgeIn]
          obtain ⟨found', todo', hrun, hgrown, hless⟩ := (h.take hmem).addEdgesOf hs htargets
          obtain ⟨ids, whole, hsearch, hfinal, hlength⟩ := ih hgrown (by
            rw [List.length_cons] at hsteps
            omega)
          refine ⟨id :: ids, whole, .take hfrom hrun hsearch, ?_, Nat.succ_le_succ hlength⟩
          rwa [List.append_assoc, List.singleton_append] at hfinal

/-- The search begins at the node of the file. -/
theorem Growing.start {n : Node} (hn : c.node? (nodeId .file path none) = some n) :
    Growing c path ((∅ : Graph).addNode n) [] [nodeId .file path none] [] := by
  have hid : n.id = nodeId .file path none := c.id_eq hn
  have hfile : c.IsOwn path (nodeId .file path none) := .file (Content.hasNode_iff.mpr ⟨n, hn⟩)
  constructor
  case indexed => exact Graph.isIndexed_empty.addNode n
  case file => exact Graph.hasNode_addNode_iff.mpr (.inl hid.symm)
  case nodes =>
    intro id m hm
    rcases Graph.node?_addNode_cases hm with ⟨rfl, rfl⟩ | hm
    · exact hid.symm ▸ ⟨hn, .inl hfile⟩
    · cases hm
  case edges => exact fun he => by cases he
  case own =>
    intro id
    rw [Graph.hasNode_addNode_iff, List.nil_append, List.mem_singleton, hid]
    constructor
    · rintro rfl
      exact ⟨hfile, .inl rfl⟩
    · -- only the node of the file is in the graph so far
      rintro ⟨-, rfl | hid⟩
      · rfl
      · cases hid
  case nodup => exact List.nodup_singleton _
  case leaving => exact fun he => by cases he
  case done => exact fun hmem => by cases hmem

/-- A search that is over has found every own node. -/
theorem Growing.hasNode_of_isOwn (h : Growing c path found taken [] []) {id : String}
    (hid : c.IsOwn path id) : found.hasNode id = true := by
  induction hid with
  | file _ => exact h.file
  | @owned key n hsource hkey hn howned ih =>
      have htaken : key.source ∈ taken := by simpa using h.own.mpr ⟨hsource, ih⟩
      rcases h.done htaken hkey (Content.hasNode_iff.mpr ⟨n, hn⟩) with ⟨e, he, -⟩ | hfound
      · cases he
      · exact h.indexed.target hfound

/-- It has taken the own nodes, and no other. -/
theorem Growing.mem_taken_iff (h : Growing c path found taken [] []) (id : String) :
    id ∈ taken ↔ c.IsOwn path id := by
  have hown : id ∈ taken ++ [] ↔ _ := h.own
  rw [List.append_nil] at hown
  exact hown.trans (and_iff_left_of_imp h.hasNode_of_isOwn)

/-- **A search that is over** has found the fragment. -/
theorem Growing.isFragment (h : Growing c path found taken [] []) : c.IsFragment path found := by
  have hedge : ∀ {key}, c.HasOwnEdge path key → found.hasEdge key = true := by
    intro key hkey
    rcases h.done ((h.mem_taken_iff _).mpr hkey.source) hkey.stored hkey.target with ⟨e, he, -⟩ | hfound
    · cases he
    · exact hfound
  have hnode : ∀ {id}, c.InFragment path id → found.hasNode id = true := by
    rintro id (hid | ⟨key, hkey, rfl⟩)
    · exact h.hasNode_of_isOwn hid
    · exact h.indexed.target (hedge hkey)
  constructor
  case indexed => exact h.indexed
  case node?_iff =>
    refine fun id n => ⟨h.nodes, fun ⟨hn, hid⟩ => ?_⟩
    obtain ⟨m, hm⟩ := Graph.hasNode_iff.mp (hnode hid)
    rw [hm, ← (h.nodes hm).1, hn]
  case edge?_iff =>
    refine fun key e => ⟨h.edges, fun ⟨he, hkey⟩ => ?_⟩
    obtain ⟨d, hd⟩ := Graph.hasEdge_iff.mp (hedge hkey)
    rw [hd, ← (h.edges hd).1, he]

/-- Without a node of the file the fragment is empty. -/
theorem fragment_eq_empty (hs : s.Shows c) (hnone : c.hasNode (nodeId .file path none) = false) :
    s.fragment path = .ok ∅ := by
  rw [fragment, hs.node?, Option.not_isSome_iff_eq_none.mp (Bool.eq_false_iff.mp hnone)]
  rfl

/-- **The search from the node of the file** takes every own node once, and finds the fragment. -/
theorem exists_searches (hs : s.Shows c) {n : Node} (hn : c.node? (nodeId .file path none) = some n) :
    ∃ ids found, Searches s path ((∅ : Graph).addNode n, [nodeId .file path none]) ids found ∧
      s.fragment path = .ok found ∧ c.IsFragment path found ∧ Enumerates (c.IsOwn path) ids := by
  obtain ⟨keys, hkeys, -⟩ := hs.edgeCount none
  have hall : Enumerates (c.HasEdgeIn fun _ => true) keys :=
    hkeys.congr fun key => by simp [Content.HasEdgeIn]
  have htargets : ∀ key, c.hasEdge key = true → key.target ∈ keys.map EdgeKey.target := fun key hkey =>
    List.mem_map_of_mem ((hall.mem_iff key).mpr ⟨hkey, rfl⟩)
  -- every step takes a node that was met, and only targets of stored edges are met
  have hsteps : [nodeId .file path none].length +
      ((∅ : Graph).addNode n).missing (keys.map EdgeKey.target) ≤ s.edgeBound + 1 := by
    have hmissing := ((∅ : Graph).addNode n).missing_le_length (keys.map EdgeKey.target)
    have hbound := hs.edgeBound hall
    rw [List.length_map] at hmissing
    simp only [List.length_singleton]
    omega
  obtain ⟨ids, found, hsearch, hgrown, hlength⟩ := (Growing.start hn).searches hs htargets hsteps
  rw [List.nil_append] at hgrown
  have hnodup := hgrown.nodup
  rw [List.append_nil] at hnodup
  refine ⟨ids, found, hsearch, ?_, hgrown.isFragment, hnodup, hgrown.mem_taken_iff⟩
  rw [fragment, hs.node?, hn]
  exact hsearch.growFragment_eq hlength

/-- There is a fragment of every file. -/
theorem exists_fragment (hs : s.Shows c) (path : String) :
    ∃ found, s.fragment path = .ok found ∧ c.IsFragment path found := by
  cases hfile : c.node? (nodeId .file path none) with
  | none =>
      have hnone : c.hasNode (nodeId .file path none) = false := by rw [Content.hasNode, hfile]; rfl
      exact ⟨∅, fragment_eq_empty hs hnone, Content.isFragment_empty hnone⟩
  | some n =>
      obtain ⟨-, found, -, hfragment, hfound, -⟩ := exists_searches hs hfile
      exact ⟨found, hfragment, hfound⟩

end Store

namespace Table

/-- **The fragment of a file is the closure of its node**, read from rows that decode. No edge is
refused, whatever the database is like. If it can be read, the fragment is empty without a node of the
file; else the search ends, takes every own node once and no other, and finds the own nodes, the edges
that leave them and do not dangle, and the targets of these. -/
theorem fragment_exact {t : Table} (hdecodes : t.rows.Decodes) (path : String) :
    (∀ source target missing, (Store.table t).fragment path ≠ .error (.danglingEdge source target missing)) ∧
    (t.state.IsReadable →
      (t.rows.content.hasNode (nodeId .file path none) = false → (Store.table t).fragment path = .ok ∅) ∧
      ∀ n, t.rows.content.node? (nodeId .file path none) = some n →
        ∃ ids found, (Store.table t).Searches path ((∅ : Graph).addNode n, [nodeId .file path none]) ids found ∧
          (Store.table t).fragment path = .ok found ∧ t.rows.content.IsFragment path found ∧
          Enumerates (t.rows.content.IsOwn path) ids) := by
  have hshows : t.state.IsReadable → (Store.table t).Shows t.rows.content := fun hstate =>
    shows hstate hdecodes.holds_content
  refine ⟨fun source target missing hfails => ?_, fun hstate => ⟨?_, fun n hn => ?_⟩⟩
  · by_cases hstate : t.state.IsReadable
    · obtain ⟨found, hfragment, -⟩ := Store.exists_fragment (hshows hstate) path
      rw [hfragment] at hfails
      cases hfails
    · -- The first statement fails, with a fault of the database.
      obtain ⟨message, hread⟩ := Statement.exists_read_eq_error hstate .readNode
      have hnode : (Store.table t).node? (nodeId .file path none) = .error (.storage message) := by
        show t.node? _ = _
        rw [node?, hread]
        rfl
      rw [Store.fragment, hnode] at hfails
      cases hfails
  · exact Store.fragment_eq_empty (hshows hstate)
  · exact Store.exists_searches (hshows hstate) hn

/-- A file with two variables that refer to each other. One of them refers to something that is gone too,
and after that to a variable of another file. -/
def crossReferences : Table :=
  let named (id name : String) := Node.ofCore id (.variable name name)
  let edge (source target : String) := Edge.ofCore source target (.plain .references)
  let nodes := [.ofCore "file:a.py" (.file "a.py" "Python" 2), named "variable:a.py:x" "x",
    named "variable:a.py:y" "y", named "variable:b.py:z" "z"]
  let edges := [edge "file:a.py" "variable:a.py:x", edge "variable:a.py:x" "variable:a.py:y",
    edge "variable:a.py:y" "variable:a.py:x", edge "variable:a.py:y" "variable:a.py:gone",
    edge "variable:a.py:y" "variable:b.py:z"]
  .ofRows .inMemory (edges.foldl Rows.putEdge (nodes.foldl Rows.putNode .empty))

/-- The fragment has the variable of the other file, and not what is gone. -/
theorem fragment_exact_crossReferences :
    crossReferences.rows.Decodes ∧ crossReferences.state.IsReadable ∧
      ∃ n ids found, (Store.table crossReferences).Searches "a.py" ((∅ : Graph).addNode n, ["file:a.py"]) ids found ∧
        (Store.table crossReferences).fragment "a.py" = .ok found ∧
        crossReferences.rows.content.IsFragment "a.py" found ∧
        Enumerates (crossReferences.rows.content.IsOwn "a.py") ids ∧
        found.hasNode "variable:b.py:z" = true ∧ found.hasNode "variable:a.py:gone" = false := by
  have hdecodes : crossReferences.rows.Decodes := by decide +kernel
  let c := crossReferences.rows.content
  have hfile : c.hasNode (nodeId .file "a.py" none) = true := by decide +kernel
  have hstep : ∀ {source target}, c.IsOwn "a.py" source → c.hasEdge ⟨source, target, .references⟩ = true →
      (c.node? target).any (·.isOwnedBy "a.py") = true → c.IsOwn "a.py" target := by
    intro source target hsource hkey howned
    obtain ⟨n, hn, howned⟩ := (Option.any_eq_true ..).mp howned
    exact @Content.IsOwn.owned c "a.py" ⟨source, target, .references⟩ n hsource hkey hn howned
  have hx : c.IsOwn "a.py" "variable:a.py:x" := hstep (.file hfile) (by decide +kernel) (by decide +kernel)
  have hy : c.IsOwn "a.py" "variable:a.py:y" := hstep hx (by decide +kernel) (by decide +kernel)
  have hz : c.InFragment "a.py" "variable:b.py:z" :=
    .inr ⟨⟨"variable:a.py:y", "variable:b.py:z", .references⟩, ⟨hy, by decide +kernel, by decide +kernel⟩, rfl⟩
  have hgone : c.node? "variable:a.py:gone" = none := by decide +kernel
  obtain ⟨n, hn⟩ := Content.hasNode_iff.mp hfile
  obtain ⟨ids, found, hsearch, hfragment, hfound, hids⟩ := ((fragment_exact hdecodes "a.py").2 (.inl rfl)).2 n hn
  refine ⟨hdecodes, .inl rfl, n, ids, found, hsearch, hfragment, hfound, hids, ?_, ?_⟩
  · obtain ⟨m, hm⟩ := Content.hasNode_iff.mp hz.hasNode
    exact Graph.hasNode_iff.mpr ⟨m, (hfound.node?_iff _ _).mpr ⟨hm, hz⟩⟩
  · rw [Bool.eq_false_iff]
    intro hthere
    obtain ⟨m, hm⟩ := Graph.hasNode_iff.mp hthere
    rw [((hfound.node?_iff _ _).mp hm).1] at hgone
    cases hgone

end Table

end ProgramGraph
