import ProgramGraph.Proofs.Store.Confinement
import ProgramGraph.Store.Catalog

set_option autoImplicit false

/-! # Stores over one byte map

Several keyed stores may be open over one byte map, each with a root of its own for its keys. If of two
roots, each with a colon behind it, neither begins with the other (`KeyLayout.IsApart`), no key belongs
to both stores, whatever identifiers are saved. The stores then know nothing of each other: in whatever
order requests come to them, also in the middle of transactions, each store gives the answers that it
would give if it were alone (`Catalog.answersOf_eq_of_isApart`).

Where the one root begins with the other, this is not so. Clearing the store with the shorter root
empties the other store (`Keyed.scan_clear_of_isPrefix`).
-/

namespace ProgramGraph

open ProgramGraph.Text

/-! ## Roots apart -/

namespace KeyLayout

variable {p q : KeyLayout} {key : Bytes}

/-- Of the roots with a colon behind each, neither begins with the other. -/
def IsApart (p q : KeyLayout) : Prop := ¬p.start [] <+: q.start [] ∧ ¬q.start [] <+: p.start []

instance (p q : KeyLayout) : Decidable (p.IsApart q) :=
  inferInstanceAs (Decidable (¬p.start [] <+: q.start [] ∧ ¬q.start [] <+: p.start []))

theorem IsApart.symm (h : p.IsApart q) : q.IsApart p := And.symm h

/-- **No key belongs to two stores** with roots apart: of two beginnings of one key the shorter one
begins the longer one. -/
theorem IsApart.not_owns (h : p.IsApart q) (hkey : p.Owns key) : ¬q.Owns key := by
  intro hother
  rcases List.prefix_or_prefix_of_prefix hkey hother with hpq | hqp
  · exact h.1 hpq
  · exact h.2 hqp

end KeyLayout

/-! ## Requests -/

namespace Store

/-- A transaction is open inside another one. A table store takes the two for one. -/
def isNested : Store → Bool
  | .table _ => false
  | .keyed k => 1 < k.depth

/-- What can be asked of an open store. -/
inductive Request where
  | node (id : String)
  | hasNode (id : String)
  | findNodes (kind : Option NodeKind) (filter : Filter) (limit : Option Nat) (offset : Nat)
  | edgesFrom (source : String) (target : Option String) (kind : Option EdgeKind)
  | edgesTo (target : String) (kind : Option EdgeKind)
  | nodeCount (kind : Option NodeKind)
  | edgeCount (kind : Option EdgeKind)
  | loadGraph (root : String) (maxDepth : UInt64)
  | statistics
  | perform (op : Operation)
  | saveNodes (nodes : List Node) (batchSize : UInt64)
  | saveEdges (edges : List Edge) (batchSize : UInt64)
  /-- Enters a transaction. -/
  | enter
  /-- Leaves the transaction that was entered last. Its body has ended so. -/
  | leave (ended : Except Stop Unit)

/-- What a store answers to a request that ends well. -/
inductive Answer where
  | done
  | node (n : Node)
  | nodes (ns : List Node)
  | edges (es : List Edge)
  | truth (b : Bool)
  | count (n : Nat)
  | graph (g : Graph)
  | statistics (s : Statistics)

end Store

namespace Action

/-- Enters a transaction. -/
def enter : Action Unit := fun s => (.ok (), s.enterScope)

/-- Leaves the transaction that was entered last. Its body has ended so. -/
def leave (ended : Except Stop Unit) : Action Unit := fun s =>
  (if s.isNested then closeInner else close) (ended, s)

/-- **A transaction** is entered, worked in and left, if its body leaves what it enters itself. -/
theorem transaction_eq_leave {body : Action Unit} {k k' : Keyed} {ended : Except Stop Unit}
    (hbody : runOn (m := Id) body (.keyed k.enterScope) = (ended, .keyed k'))
    (hdepth : k'.depth = k.enterScope.depth) :
    runOn (m := Id) (transaction body) (.keyed k) = runOn (m := Id) (leave ended) (.keyed k') := by
  -- The body has put the depth back, so the store is as deep inside as right after it was entered.
  have hnested : (Store.keyed k').isNested = (Store.keyed k).isOpen := by
    show decide (1 < k'.depth) = decide (0 < k.depth)
    rw [hdepth]
    exact decide_eq_decide.mpr Nat.succ_lt_succ_iff
  show (if (Store.keyed k).isOpen then closeInner else close)
      (runOn (m := Id) body (.keyed k.enterScope)) =
    (if (Store.keyed k').isNested then closeInner else close) (ended, .keyed k')
  rw [hbody, hnested]

namespace IsConfined

theorem enter : IsConfined enter where
  endsAlike h := ⟨.ok (), _, _, rfl, rfl, h.enterScope, rfl, fun _ => rfl⟩

theorem leave (ended : Except Stop Unit) : IsConfined (leave ended) := by
  constructor
  intro a b h
  have hnested : (Store.keyed b).isNested = (Store.keyed a).isNested := by
    rw [h.eq]
    rfl
  have hended : EndsAlike a (ended, .keyed a) (ended, .keyed b) := ⟨ended, a, b, rfl, rfl, h, .refl a⟩
  show EndsAlike a ((if (Store.keyed a).isNested then closeInner else close) _)
    ((if (Store.keyed b).isNested then closeInner else close) _)
  rw [hnested]
  split
  · exact hended.closeInner
  · exact hended.close

end IsConfined

end Action

namespace Store

namespace Request

/-- Works on a request. -/
def work : Request → Action Answer
  | .node id => .node <$> Action.read fun s => s.node id
  | .hasNode id => .truth <$> Action.read fun s => s.hasNode id
  | .findNodes kind filter limit offset =>
      .nodes <$> Action.read fun s => s.findNodes kind filter limit offset
  | .edgesFrom source target kind => .edges <$> Action.read fun s => s.edgesFrom source target kind
  | .edgesTo target kind => .edges <$> Action.read fun s => s.edgesTo target kind
  | .nodeCount kind => .count <$> Action.read fun s => s.nodeCount kind
  | .edgeCount kind => .count <$> Action.read fun s => s.edgeCount kind
  | .loadGraph root maxDepth => .graph <$> Action.read fun s => s.loadGraph root maxDepth
  | .statistics => .statistics <$> Action.read Store.statistics
  | .perform op => (fun _ => .done) <$> Action.perform op
  | .saveNodes nodes batchSize => .count <$> Action.saveNodes nodes batchSize
  | .saveEdges edges batchSize => .count <$> Action.saveEdges edges batchSize
  | .enter => (fun _ => .done) <$> Action.enter
  | .leave ended => (fun _ => .done) <$> Action.leave ended

/-- **Every request** is confined work. -/
theorem isConfined_work (request : Request) : request.work.IsConfined := by
  cases request <;> apply Action.IsConfined.map
  case node id => exact .read fun h => h.answersAlike.node id
  case hasNode id => exact .ask (fun _ => rfl) fun h => h.answersAlike.hasNode id
  case findNodes kind filter limit offset =>
    exact .read fun h => h.answersAlike.findNodes kind filter limit offset
  case edgesFrom source target kind => exact .read fun h => h.answersAlike.edgesFrom source target kind
  case edgesTo target kind => exact .read fun h => h.answersAlike.edgesTo target kind
  case nodeCount kind => exact .ask (fun _ => rfl) fun h => h.answersAlike.nodeCount kind
  case edgeCount kind => exact .ask (fun _ => rfl) fun h => h.answersAlike.edgeCount kind
  case loadGraph root maxDepth => exact .read fun h => h.answersAlike.loadGraph root maxDepth
  case statistics => exact .ask (fun _ => rfl) fun h => h.answersAlike.statistics
  case perform op => exact .perform op
  case saveNodes nodes batchSize => exact .performInChunks _ batchSize
  case saveEdges edges batchSize => exact .performInChunks _ batchSize
  case enter => exact .enter
  case leave ended => exact .leave ended

end Request

/-- A request to the store with a number, at a moment. -/
structure Event where
  number : Nat
  now : UInt64
  request : Request

/-- The answer to a request, and the store afterwards. -/
def serve (s : Store) (event : Event) : Except Stop Answer × Store :=
  Action.runOn (m := Id) event.request.work (s.atMoment event.now)

/-- The answers of a store that is alone. -/
def answers (s : Store) : List Event → List (Except Stop Answer)
  | [] => []
  | event :: rest => (s.serve event).1 :: (s.serve event).2.answers rest

/-- Twins answer a request alike. -/
theorem endsAlike_serve {a b : Keyed} (h : a.Twin b) (event : Event) :
    Action.EndsAlike a ((keyed a).serve event) ((keyed b).serve event) := by
  obtain ⟨ended, a', b', ha, hb, htwin, hspares⟩ :=
    event.request.isConfined_work.endsAlike (h.atMoment event.now)
  exact ⟨ended, a', b', ha, hb, htwin, hspares.layout_eq, hspares.getElem?_eq⟩

end Store

/-- **Clearing reaches further** where a root begins with the root of the cleared store and a colon: of the
other store nothing is left either. -/
theorem Keyed.scan_clear_of_isPrefix {k : Keyed} (closed : k.isOpen = false) {layout : KeyLayout}
    (h : k.layout.start [] <+: layout.start []) (parts : List String) :
    k.clear.entries.scan (layout.start parts) = [] := by
  have hentries : k.clear.entries =
      k.entries.writeAll ((k.entries.keysUnder (k.layout.start [])).map .delete) := by
    rw [clear, submit_of_not_isOpen closed, allDeletes_eq_keysUnder]
  have hkeys : k.clear.entries.keysUnder (layout.start parts) = [] := by
    apply List.eq_nil_iff_forall_not_mem.mpr
    intro key hkey
    obtain ⟨hmem, hstart⟩ := ByteMap.mem_keysUnder.mp hkey
    have hfound : k.layout.start [] <+: key := h.trans (KeyLayout.owns_of_start hstart)
    rw [Std.TreeMap.mem_iff_isSome_getElem?, hentries, ByteMap.getElem?_deleteAll] at hmem
    split at hmem
    · cases hmem
    · rename_i hnot
      -- What is there and begins so is among what is deleted.
      exact hnot (ByteMap.mem_keysUnder.mpr ⟨Std.TreeMap.mem_iff_isSome_getElem?.mpr hmem, hfound⟩)
  exact List.map_eq_nil_iff.mp hkeys

namespace Catalog

/-- The answer to a request, if there is a store with the number, and the catalog afterwards. -/
def serve (c : Catalog) (files : Directory) (event : Store.Event) :
    Option (Except Stop Store.Answer) × Catalog :=
  match c.store? files event.number with
  | none => (none, c)
  | some s => (some (s.serve event).1, c.putStore event.number (s.serve event).2)

/-- The answers of the store with a number, while others are asked too. -/
def answersOf (number : Nat) (files : Directory) : Catalog → List Store.Event → List (Except Stop Store.Answer)
  | _, [] => []
  | c, event :: rest =>
      let later := (c.serve files event).2.answersOf number files rest
      if event.number = number then (c.serve files event).1.toList ++ later else later

/-- Two keyed stores, with the numbers 0 and 1, over one byte map. -/
def ofTwo (name : String) (m : ByteMap) (p q : KeyedSettings) (opened : UInt64) : Catalog :=
  let first := (empty.putMemory name m).openKeyed p name opened
  (first.1.openKeyed q name opened).1

/-! ## Stores in a catalog -/

/-- The store with a number is a keyed one over the byte map with a name. -/
structure Holds (c : Catalog) (name : String) (number : Nat) (k : Keyed) : Prop where
  stored : ∃ old, c.stores[number]? = some (.keyed { k with entries := old }, .memory name)
  entries : k.entries = c.memory name

variable {c : Catalog} {name : String} {number other : Nat} {k l : Keyed} {m : ByteMap}

theorem memory_putMemory (c : Catalog) (name : String) (m : ByteMap) : (c.putMemory name m).memory name = m := by
  show ((c.memories.insert name m)[name]?).getD ∅ = m
  rw [Std.TreeMap.getElem?_insert_self]
  rfl

namespace Holds

theorem store?_eq (h : c.Holds name number k) (files : Directory) : c.store? files number = some (.keyed k) := by
  obtain ⟨old, hstored⟩ := h.stored
  rw [store?, hstored]
  show some (Store.keyed { k with entries := c.memory name }) = _
  rw [← h.entries]

/-- The store is asked, and put back as it is afterwards. -/
theorem serve_eq {event : Store.Event} (h : c.Holds name event.number k) (files : Directory)
    {ended : Except Stop Store.Answer} {s : Store} (hserved : (Store.keyed k).serve event = (ended, s)) :
    c.serve files event = (some ended, c.putStore event.number s) := by
  rw [serve, h.store?_eq]
  show (some ((Store.keyed k).serve event).1, c.putStore event.number ((Store.keyed k).serve event).2) = _
  rw [hserved]

/-- What becomes of the catalog if a store over a byte map is put back. -/
theorem putStore_eq (h : c.Holds name number k) (k' : Keyed) : c.putStore number (.keyed k') =
    ({ c with stores := c.stores.setIfInBounds number (.keyed k', .memory name) } : Catalog).putMemory name
      k'.entries := by
  obtain ⟨old, hstored⟩ := h.stored
  rw [putStore, hstored]

/-- A store is put back, -/
theorem putStore_self (h : c.Holds name number k) (k' : Keyed) :
    (c.putStore number (.keyed k')).Holds name number k' := by
  rw [h.putStore_eq]
  constructor
  case stored =>
    obtain ⟨old, hstored⟩ := h.stored
    obtain ⟨hlt, -⟩ := Array.getElem?_eq_some_iff.mp hstored
    refine ⟨k'.entries, ?_⟩
    show (c.stores.setIfInBounds number _)[number]? = _
    rw [Array.getElem?_setIfInBounds_self_of_lt hlt]
  case entries => rw [memory_putMemory]

/-- and any other store over the same byte map has its entries. -/
theorem putStore_other (h : c.Holds name number k) (hother : c.Holds name other l) (hne : other ≠ number)
    (k' : Keyed) : (c.putStore number (.keyed k')).Holds name other { l with entries := k'.entries } := by
  rw [h.putStore_eq]
  constructor
  case stored =>
    obtain ⟨old, hstored⟩ := hother.stored
    refine ⟨old, ?_⟩
    show (c.stores.setIfInBounds number _)[other]? = _
    rw [Array.getElem?_setIfInBounds_ne hne.symm, hstored]
  case entries => rw [memory_putMemory]

end Holds

/-! ## One store among others -/

/-- Over one byte map the store with a number has a twin that is alone, and all other stores have roots
apart from its root. -/
structure Isolates (c : Catalog) (name : String) (number : Nat) (k : Keyed) : Prop where
  own : ∃ a, c.Holds name number a ∧ a.Twin k
  others : ∀ other ≠ number, c.stores[other]? = none ∨
    ∃ b, c.Holds name other b ∧ b.Twin b ∧ k.layout.IsApart b.layout

namespace Isolates

variable {files : Directory} {event : Store.Event}

/-- What another store is if a store over the same byte map is put back. -/
theorem others_putStore (h : c.Isolates name number k) (hl : c.Holds name other l) (l' : Keyed) {third : Nat}
    (hthird : third ≠ number) (hne : third ≠ other) :
    (c.putStore other (.keyed l')).stores[third]? = none ∨
      ∃ b, (c.putStore other (.keyed l')).Holds name third b ∧ b.Twin b ∧ k.layout.IsApart b.layout := by
  rcases h.others third hthird with hnone | ⟨b, hb, hbtwin, hapart⟩
  · left
    rw [hl.putStore_eq]
    show (c.stores.setIfInBounds other _)[third]? = none
    rw [Array.getElem?_setIfInBounds_ne hne.symm, hnone]
  · right
    exact ⟨_, hl.putStore_other hb hne l', .refl hbtwin.owns, hapart⟩

/-- **A request to the store** is answered as its twin answers it. -/
theorem serve_own (h : c.Isolates name event.number k) (files : Directory) :
    ∃ ended k', (Store.keyed k).serve event = (ended, .keyed k') ∧ (c.serve files event).1 = some ended ∧
      (c.serve files event).2.Isolates name event.number k' := by
  obtain ⟨a, ha, htwin⟩ := h.own
  obtain ⟨ended, a', k', hserved, halone, htwin', hspares⟩ := Store.endsAlike_serve htwin event
  have hlayout : k'.layout = k.layout :=
    calc k'.layout = a'.layout := htwin'.layout_eq
      _ = a.layout := hspares.layout_eq
      _ = k.layout := htwin.layout_eq.symm
  rw [ha.serve_eq files hserved]
  refine ⟨ended, k', halone, rfl, ⟨a', ha.putStore_self a', htwin'⟩, ?_⟩
  intro other hne
  rw [hlayout]
  exact h.others_putStore ha a' hne hne

/-- **A request to another store** changes nothing for the twin. -/
theorem serve_other (h : c.Isolates name number k) (files : Directory) (hne : event.number ≠ number) :
    (c.serve files event).2.Isolates name number k := by
  rcases h.others event.number hne with hnone | ⟨b, hb, hbtwin, hapart⟩
  · have hserve : c.serve files event = (none, c) := by
      rw [serve, store?, hnone]
      rfl
    rw [hserve]
    exact h
  · obtain ⟨ended, b', b'', hserved, halone, htwin', hspares⟩ := Store.endsAlike_serve hbtwin event
    obtain rfl : b' = b'' := Store.keyed.inj (congrArg Prod.snd (hserved.symm.trans halone))
    rw [hb.serve_eq files hserved]
    constructor
    case own =>
      obtain ⟨a, ha, htwin⟩ := h.own
      refine ⟨_, hb.putStore_other ha hne.symm b', htwin.eq, ?_, htwin.owns⟩
      intro key hkey
      -- A key of the one store is no key of the other, since their roots are apart.
      have hforeign : ¬b.layout.Owns key := hapart.not_owns (htwin.layout_eq ▸ hkey)
      calc b'.entries[key]?
          = b.entries[key]? := hspares.getElem?_eq hforeign
        _ = a.entries[key]? := by rw [hb.entries, ha.entries]
        _ = k.entries[key]? := htwin.agrees key hkey
    case others =>
      intro other hother
      by_cases hsame : other = event.number
      · right
        exact ⟨b', hsame ▸ hb.putStore_self b', htwin', hspares.layout_eq ▸ hapart⟩
      · exact h.others_putStore hb b' hother hsame

/-- **In any sequence of requests** the store answers as its twin answers its own ones. -/
theorem answersOf_eq (h : c.Isolates name number k) (files : Directory) (events : List Store.Event) :
    c.answersOf number files events =
      (Store.keyed k).answers (events.filter fun event => event.number = number) := by
  -- Only a request to the store moves its twin. Whatever is asked, the two stay twins.
  induction events generalizing c k with
  | nil => rfl
  | cons event rest ih =>
      by_cases hevent : event.number = number
      · subst hevent
        obtain ⟨ended, k', halone, hanswer, hlater⟩ := h.serve_own files
        rw [answersOf, if_pos rfl, List.filter_cons_of_pos (by simp), Store.answers, halone, hanswer, ih hlater]
        rfl
      · rw [answersOf, if_neg hevent, List.filter_cons_of_neg (by simp [hevent])]
        exact ih (h.serve_other files hevent)

end Isolates

/-- **Stores with roots apart over one byte map.** Whatever is asked of the two, in whatever order and at
whatever moments, transactions of the one begun and ended in the middle of those of the other: each store
gives the answers that it gives to its own requests if it is alone with the same entries. -/
theorem answersOf_eq_of_isApart {p q : KeyedSettings}
    (apart : KeyLayout.IsApart ⟨p.keyRoot⟩ ⟨q.keyRoot⟩) (name : String) (m : ByteMap) (opened : UInt64)
    (files : Directory) (events : List Store.Event) :
    (ofTwo name m p q opened).answersOf 0 files events =
        (Store.keyed (.ofEntries p m opened)).answers (events.filter fun event => event.number = 0) ∧
      (ofTwo name m p q opened).answersOf 1 files events =
        (Store.keyed (.ofEntries q m opened)).answers (events.filter fun event => event.number = 1) := by
  have hmemory : (ofTwo name m p q opened).memory name = m := memory_putMemory empty name m
  have hp : (ofTwo name m p q opened).Holds name 0 (.ofEntries p m opened) := ⟨⟨∅, rfl⟩, hmemory.symm⟩
  have hq : (ofTwo name m p q opened).Holds name 1 (.ofEntries q m opened) := ⟨⟨∅, rfl⟩, hmemory.symm⟩
  have htwin : ∀ settings : KeyedSettings,
      (Keyed.ofEntries settings m opened).Twin (.ofEntries settings m opened) := fun settings =>
    .refl fun w hw => absurd hw (Array.not_mem_empty w)
  constructor
  · apply Isolates.answersOf_eq
    refine ⟨⟨_, hp, htwin p⟩, fun other hne => ?_⟩
    match other with
    | 0 => exact absurd rfl hne
    | 1 => exact .inr ⟨_, hq, htwin q, apart⟩
    | _ + 2 => exact .inl rfl
  · apply Isolates.answersOf_eq
    refine ⟨⟨_, hq, htwin q⟩, fun other hne => ?_⟩
    match other with
    | 0 => exact .inr ⟨_, hp, htwin p, apart.symm⟩
    | 1 => exact absurd rfl hne
    | _ + 2 => exact .inl rfl

/-- One root begins with the other, but not with the other and a colon. The one store is cleared in a
transaction of its own while the other one is in a transaction in which it has saved. -/
theorem answersOf_eq_of_isApart_interleaved :
    let p := { KeyedSettings.standard with keyRoot := "a" }
    let q := { KeyedSettings.standard with keyRoot := "ab" }
    let saved := Store.Request.perform (.saveNode (.ofCore "b:node:x" (.module "x" "x")))
    let events : List Store.Event := [⟨0, 0, .enter⟩, ⟨0, 1, saved⟩, ⟨1, 2, saved⟩, ⟨1, 3, .enter⟩,
      ⟨1, 4, .perform .clear⟩, ⟨0, 5, .leave (.ok ())⟩, ⟨1, 6, .leave (.ok ())⟩, ⟨0, 7, .hasNode "b:node:x"⟩,
      ⟨1, 8, .hasNode "b:node:x"⟩]
    let shared := ofTwo "shared" ∅ p q 0
    let own (number : Nat) := events.filter fun event => event.number = number
    KeyLayout.IsApart ⟨p.keyRoot⟩ ⟨q.keyRoot⟩ ∧
      shared.answersOf 0 .empty events = (Store.keyed (.ofEntries p ∅ 0)).answers (own 0) ∧
      shared.answersOf 1 .empty events = (Store.keyed (.ofEntries q ∅ 0)).answers (own 1) := by
  intro p q saved events shared own
  have apart : KeyLayout.IsApart ⟨p.keyRoot⟩ ⟨q.keyRoot⟩ := by decide +kernel
  exact ⟨apart, answersOf_eq_of_isApart apart "shared" ∅ 0 .empty events⟩

end Catalog

end ProgramGraph
