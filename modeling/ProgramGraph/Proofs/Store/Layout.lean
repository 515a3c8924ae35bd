import ProgramGraph.Proofs.Text.Utf8
import ProgramGraph.Store.Layout

set_option autoImplicit false

/-! # Slots of a keyed store

A slot is a place where a keyed store may have an entry: a node, a node under its kind, an edge
under one of its three keys. Every slot has its key. The five families of slots are told apart
by a fixed part of the key, and so is the kind, which has no colon in it. Inside a family the
identifiers are told apart as far as two of them joined by a colon are (`Unambiguous`), so that
no two slots share a key (`Slot.bytes_injective`).
-/

namespace ProgramGraph

open ProgramGraph.Text

/-- Two used identifiers joined by a colon can be taken apart again. -/
def Unambiguous (used : String → Prop) : Prop :=
  ∀ a b c d, used a → used b → used c → used d → a ++ ":" ++ b = c ++ ":" ++ d → a = c ∧ b = d

/-- A place for an entry of a keyed store. -/
inductive Slot where
  | node (id : String)
  | nodeOfKind (kind : NodeKind) (id : String)
  | edge (key : EdgeKey)
  | incoming (key : EdgeKey)
  | edgeOfKind (key : EdgeKey)
  deriving Repr, DecidableEq

namespace Slot

/-- The fixed part of the keys of a family. -/
def family : Slot → String
  | .node _ => "node"
  | .nodeOfKind .. => "type"
  | .edge _ => "edges"
  | .incoming _ => "incoming"
  | .edgeOfKind _ => "edge_type"

/-- What follows the fixed part. -/
def rest : Slot → List String
  | .node id => [id]
  | .nodeOfKind kind id => [kind.name, id]
  | .edge k => [k.source, k.target, k.kind.name]
  | .incoming k => [k.target, k.source, k.kind.name]
  | .edgeOfKind k => [k.kind.name, k.source, k.target]

/-- The key of a slot. -/
def bytes (layout : KeyLayout) (slot : Slot) : Bytes := layout.key (slot.family :: slot.rest)

/-- The ends of the edge are used identifiers. -/
def IsUsed (used : String → Prop) : Slot → Prop
  | .node _ | .nodeOfKind .. => True
  | .edge k | .incoming k | .edgeOfKind k => used k.source ∧ used k.target

end Slot

/-! ## Parts of a key -/

/-- The byte of a colon. -/
def colon : UInt8 := 0x3a

/-- Parts with a colon in front of each. -/
def marked (parts : List String) : Bytes := parts.flatMap fun part => colon :: utf8 part

theorem marked_cons (part : String) (rest : List String) :
    marked (part :: rest) = colon :: (utf8 part ++ marked rest) := rfl

theorem utf8_intercalate (first : String) (rest : List String) :
    utf8 (":".intercalate (first :: rest)) = utf8 first ++ marked rest := by
  induction rest generalizing first with
  | nil => simp [marked]
  | cons part rest ih =>
      have hcolon : utf8 ":" = [colon] := by decide
      rw [String.intercalate_cons_cons, utf8_append, utf8_append, hcolon, ih, marked_cons]
      simp

namespace KeyLayout

variable (layout : KeyLayout)

theorem key_eq (parts : List String) : layout.key parts = utf8 layout.root ++ marked parts :=
  utf8_intercalate layout.root parts

theorem start_eq (parts : List String) :
    layout.start parts = utf8 layout.root ++ (marked parts ++ [colon]) := by
  rw [start, key_eq, List.append_assoc]
  rfl

theorem start_isPrefix_key {front parts : List String} :
    layout.start front <+: layout.key parts ↔ marked front ++ [colon] <+: marked parts := by
  rw [start_eq, key_eq, List.prefix_append_right_inj]

end KeyLayout

/-- There is no colon in the text. -/
def HasNoColon (s : String) : Prop := colon ∉ utf8 s

/-- Texts without a colon are told apart in front of one. -/
theorem isPrefix_part {a b x y : Bytes} (ha : colon ∉ a) (hb : colon ∉ b) :
    a ++ colon :: x <+: b ++ colon :: y ↔ a = b ∧ x <+: y := by
  induction a generalizing b with
  | nil =>
      cases b with
      | nil => simp [List.cons_prefix_cons]
      | cons c b =>
          have hne : colon ≠ c := fun h => hb (h ▸ List.mem_cons_self)
          simp [List.cons_prefix_cons, hne]
  | cons c a ih =>
      have hc : c ≠ colon := fun h => ha (h ▸ List.mem_cons_self)
      have ha' : colon ∉ a := fun h => ha (List.mem_cons_of_mem _ h)
      cases b with
      | nil => simp [List.cons_prefix_cons, hc]
      | cons d b =>
          have hb' : colon ∉ b := fun h => hb (List.mem_cons_of_mem _ h)
          simp [List.cons_prefix_cons, ih ha' hb', and_assoc]

/-- The first part without a colon can be taken off. -/
theorem eq_part {a b x y : Bytes} (ha : colon ∉ a) (hb : colon ∉ b) :
    a ++ colon :: x = b ++ colon :: y ↔ a = b ∧ x = y := by
  constructor
  · intro h
    obtain ⟨hab, -⟩ := (isPrefix_part ha hb).mp ⟨[], by rw [List.append_nil, h]⟩
    subst hab
    exact ⟨rfl, by simpa using h⟩
  · rintro ⟨rfl, rfl⟩
    rfl

/-- The last part without a colon can be taken off. -/
theorem eq_lastPart {a b x y : Bytes} (hx : colon ∉ x) (hy : colon ∉ y) :
    a ++ colon :: x = b ++ colon :: y ↔ a = b ∧ x = y := by
  rw [← List.reverse_inj]
  simp only [List.reverse_append, List.reverse_cons, List.append_assoc, List.singleton_append]
  rw [eq_part (by simpa using hx) (by simpa using hy), List.reverse_inj, List.reverse_inj, and_comm]

theorem hasNoColon_family (slot : Slot) : HasNoColon slot.family := by
  cases slot <;> simp only [HasNoColon, Slot.family] <;> decide +kernel

theorem hasNoColon_nodeKind (kind : NodeKind) : HasNoColon kind.name := by
  cases kind <;> simp only [HasNoColon, NodeKind.name] <;> decide +kernel

theorem hasNoColon_edgeKind (kind : EdgeKind) : HasNoColon kind.name := by
  cases kind <;> simp only [HasNoColon, EdgeKind.name] <;> decide +kernel

theorem NodeKind.name_injective {a b : NodeKind} (h : a.name = b.name) : a = b := by
  cases a <;> cases b <;> first | rfl | exact absurd h (by decide)

theorem EdgeKind.name_injective {a b : EdgeKind} (h : a.name = b.name) : a = b := by
  cases a <;> cases b <;> first | rfl | exact absurd h (by decide)

/-- Behind a part comes a colon. -/
theorem marked_append_colon (parts : List String) : ∃ x, marked parts ++ [colon] = colon :: x := by
  cases parts with
  | nil => exact ⟨[], rfl⟩
  | cons part rest => exact ⟨utf8 part ++ marked rest ++ [colon], rfl⟩

theorem colon_isPrefix_marked {parts : List String} (h : parts ≠ []) :
    marked [] ++ [colon] <+: marked parts := by
  cases parts with
  | nil => exact absurd rfl h
  | cons part rest => exact ⟨utf8 part ++ marked rest, rfl⟩

/-- A first part without a colon decides whether parts begin like others. -/
theorem marked_isPrefix {a b : String} (ha : HasNoColon a) (hb : HasNoColon b)
    (front : List String) {rest : List String} (hrest : rest ≠ []) :
    marked (a :: front) ++ [colon] <+: marked (b :: rest) ↔
      a = b ∧ marked front ++ [colon] <+: marked rest := by
  obtain ⟨x, hx⟩ := marked_append_colon front
  obtain ⟨y, hy⟩ := colon_isPrefix_marked hrest
  replace hy : colon :: y = marked rest := hy
  rw [marked_cons, marked_cons, List.cons_append, List.cons_prefix_cons, List.append_assoc, hx, ← hy,
    isPrefix_part ha hb, List.cons_prefix_cons]
  simp only [true_and]
  exact and_congr_left' ⟨utf8_injective, congrArg utf8⟩

theorem marked_inj {a b : String} (ha : HasNoColon a) (hb : HasNoColon b) {x y : List String}
    (hx : x ≠ []) (hy : y ≠ []) : marked (a :: x) = marked (b :: y) ↔ a = b ∧ marked x = marked y := by
  obtain ⟨u, hu⟩ := colon_isPrefix_marked hx
  obtain ⟨v, hv⟩ := colon_isPrefix_marked hy
  replace hu : colon :: u = marked x := hu
  replace hv : colon :: v = marked y := hv
  rw [marked_cons, marked_cons, List.cons_inj_right, ← hu, ← hv, eq_part ha hb, List.cons_inj_right]
  exact and_congr_left' ⟨utf8_injective, congrArg utf8⟩

/-! ## Families -/

namespace Slot

variable {layout : KeyLayout} {slot : Slot}

theorem rest_ne_nil (slot : Slot) : slot.rest ≠ [] := by
  cases slot <;> exact List.cons_ne_nil _ _

/-- A scan by a family finds keys of this family only. -/
theorem start_isPrefix_bytes (family : Slot) (front : List String) :
    layout.start (family.family :: front) <+: slot.bytes layout ↔
      family.family = slot.family ∧ marked front ++ [colon] <+: marked slot.rest := by
  rw [bytes, KeyLayout.start_isPrefix_key,
    marked_isPrefix (hasNoColon_family _) (hasNoColon_family _) front slot.rest_ne_nil]

/-- Keys are equal where the family and what follows it are. -/
theorem bytes_eq_iff {a b : Slot} :
    a.bytes layout = b.bytes layout ↔ a.family = b.family ∧ marked a.rest = marked b.rest := by
  rw [bytes, bytes, KeyLayout.key_eq, KeyLayout.key_eq, List.append_right_inj,
    marked_inj (hasNoColon_family a) (hasNoColon_family b) a.rest_ne_nil b.rest_ne_nil]

/-- The scan over all nodes. -/
theorem start_node_isPrefix :
    layout.start ["node"] <+: slot.bytes layout ↔ ∃ id, slot = .node id := by
  refine (start_isPrefix_bytes (.node "") []).trans ?_
  rw [and_iff_left (colon_isPrefix_marked slot.rest_ne_nil)]
  cases slot <;> simp [family]

/-- The scan over the nodes of a kind. -/
theorem start_kind_isPrefix {kind : NodeKind} :
    layout.start ["type", kind.name] <+: slot.bytes layout ↔ ∃ id, slot = .nodeOfKind kind id := by
  refine (start_isPrefix_bytes (.nodeOfKind kind "") [kind.name]).trans ?_
  cases slot with
  | nodeOfKind k id =>
      have hid : [id] ≠ [] := List.cons_ne_nil _ _
      simp only [family, rest, true_and, nodeOfKind.injEq, exists_and_left, exists_eq', and_true,
        marked_isPrefix (hasNoColon_nodeKind kind) (hasNoColon_nodeKind k) [] hid,
        colon_isPrefix_marked hid]
      exact ⟨fun h => (NodeKind.name_injective h).symm, fun h => congrArg NodeKind.name h.symm⟩
  | _ => simp [family]

/-- The scan over all edges. -/
theorem start_edges_isPrefix :
    layout.start ["edges"] <+: slot.bytes layout ↔ ∃ key, slot = .edge key := by
  refine (start_isPrefix_bytes (.edge default) []).trans ?_
  rw [and_iff_left (colon_isPrefix_marked slot.rest_ne_nil)]
  cases slot <;> simp [family]

/-- The scan over the edges of a relation. -/
theorem start_relation_isPrefix {kind : EdgeKind} :
    layout.start ["edge_type", kind.name] <+: slot.bytes layout ↔
      ∃ key : EdgeKey, key.kind = kind ∧ slot = .edgeOfKind key := by
  refine (start_isPrefix_bytes (.edgeOfKind default) [kind.name]).trans ?_
  cases slot with
  | edgeOfKind key =>
      have hends : [key.source, key.target] ≠ [] := List.cons_ne_nil _ _
      simp only [family, rest, true_and, edgeOfKind.injEq, exists_eq_right',
        marked_isPrefix (hasNoColon_edgeKind kind) (hasNoColon_edgeKind key.kind) [] hends,
        colon_isPrefix_marked hends, and_true]
      exact ⟨fun h => (EdgeKind.name_injective h).symm, fun h => congrArg EdgeKind.name h.symm⟩
  | _ => simp [family]

/-- A scan for edges finds edges only, -/
theorem edge_of_start_isPrefix {front : List String}
    (h : layout.start ("edges" :: front) <+: slot.bytes layout) : ∃ key, slot = .edge key := by
  obtain ⟨hfamily, -⟩ := (start_isPrefix_bytes (.edge default) front).mp h
  cases slot <;> simp_all [family]

/-- and a scan for edges by their target too. -/
theorem incoming_of_start_isPrefix {front : List String}
    (h : layout.start ("incoming" :: front) <+: slot.bytes layout) : ∃ key, slot = .incoming key := by
  obtain ⟨hfamily, -⟩ := (start_isPrefix_bytes (.incoming default) front).mp h
  cases slot <;> simp_all [family]

theorem marked_append (a b : List String) : marked (a ++ b) = marked a ++ marked b :=
  List.flatMap_append

/-- A scan by the first parts of a key finds it. -/
theorem start_isPrefix_key_append (front : List String) {more : List String} (h : more ≠ []) :
    layout.start front <+: layout.key (front ++ more) := by
  rw [KeyLayout.start_isPrefix_key, marked_append, List.prefix_append_right_inj]
  exact colon_isPrefix_marked h

/-- The scan for the edges of a source, and of a target if one is given, finds them. -/
theorem start_source_isPrefix (key : EdgeKey) {target : Option String}
    (h : target.all (fun t => key.target = t) = true) :
    layout.start ("edges" :: key.source :: target.toList) <+: (Slot.edge key).bytes layout := by
  cases target with
  | none =>
      exact start_isPrefix_key_append ["edges", key.source]
        (List.cons_ne_nil key.target [key.kind.name])
  | some t =>
      obtain rfl : key.target = t := by simpa using h
      exact start_isPrefix_key_append ["edges", key.source, key.target]
        (List.cons_ne_nil key.kind.name [])

/-- The scan for the edges of a target finds them. -/
theorem start_target_isPrefix (key : EdgeKey) :
    layout.start ["incoming", key.target] <+: (Slot.incoming key).bytes layout :=
  start_isPrefix_key_append ["incoming", key.target]
    (List.cons_ne_nil key.source [key.kind.name])

/-- The scan over the whole store finds every key. -/
theorem start_nil_isPrefix (slot : Slot) : layout.start [] <+: slot.bytes layout :=
  start_isPrefix_key_append [] (List.cons_ne_nil slot.family slot.rest)

/-! ## One slot to a key -/

theorem marked_single_inj {a b : String} (h : marked [a] = marked [b]) : a = b := by
  rw [marked_cons, marked_cons] at h
  exact utf8_injective (by simpa [marked] using h)

/-- Two texts with colons are told apart where they are when joined by one. -/
theorem marked_pair_eq {a b c d : String} :
    marked [a, b] = marked [c, d] ↔ a ++ ":" ++ b = c ++ ":" ++ d := by
  have hcolon : utf8 ":" = [colon] := by decide
  have hpair : ∀ x y : String, marked [x, y] = colon :: utf8 (x ++ ":" ++ y) := fun x y => by
    rw [utf8_append, utf8_append, hcolon]
    simp [marked]
  rw [hpair, hpair, List.cons_inj_right]
  exact ⟨fun h => utf8_injective h, congrArg utf8⟩

/-- So are they in front of a relation. -/
theorem marked_triple_eq {a b c d : String} {k l : EdgeKind} :
    marked [a, b, k.name] = marked [c, d, l.name] ↔ a ++ ":" ++ b = c ++ ":" ++ d ∧ k = l := by
  have hlast : ∀ (x y : String) (kind : EdgeKind),
      marked [x, y, kind.name] = marked [x, y] ++ colon :: utf8 kind.name := fun x y kind => by
    simp [marked]
  rw [hlast, hlast, eq_lastPart (hasNoColon_edgeKind k) (hasNoColon_edgeKind l), marked_pair_eq]
  exact and_congr_right' ⟨fun h => EdgeKind.name_injective (utf8_injective h), fun h => h ▸ rfl⟩

/-- Slots of different families have different keys. -/
theorem bytes_ne_of_family {a b : Slot} (h : a.family ≠ b.family) : a.bytes layout ≠ b.bytes layout :=
  fun heq => h (bytes_eq_iff.mp heq).1

/-- Under their source two edges meet where source and target are joined to one text. -/
theorem edge_bytes_eq_iff {a b : EdgeKey} :
    (Slot.edge a).bytes layout = (Slot.edge b).bytes layout ↔
      a.source ++ ":" ++ a.target = b.source ++ ":" ++ b.target ∧ a.kind = b.kind :=
  bytes_eq_iff.trans ((and_iff_right rfl).trans marked_triple_eq)

/-- Under their target two edges meet where target and source are joined to one text. -/
theorem incoming_bytes_eq_iff {a b : EdgeKey} :
    (Slot.incoming a).bytes layout = (Slot.incoming b).bytes layout ↔
      a.target ++ ":" ++ a.source = b.target ++ ":" ++ b.source ∧ a.kind = b.kind :=
  bytes_eq_iff.trans ((and_iff_right rfl).trans marked_triple_eq)

/-- Under their relation two edges meet where they do under their source. -/
theorem edgeOfKind_bytes_eq_iff {a b : EdgeKey} :
    (Slot.edgeOfKind a).bytes layout = (Slot.edgeOfKind b).bytes layout ↔
      a.source ++ ":" ++ a.target = b.source ++ ":" ++ b.target ∧ a.kind = b.kind := by
  refine bytes_eq_iff.trans ((and_iff_right rfl).trans ?_)
  rw [rest, rest, marked_inj (hasNoColon_edgeKind _) (hasNoColon_edgeKind _) (List.cons_ne_nil _ _)
    (List.cons_ne_nil _ _), marked_pair_eq, and_comm]
  exact and_congr_right' ⟨fun h => EdgeKind.name_injective h, fun h => h ▸ rfl⟩

/-- The keys of the edges under their sources and under their relations are met by the same edges. -/
theorem exists_edge_bytes_eq_iff {there : Slot → Prop}
    (h : ∀ key, there (.edge key) ↔ there (.edgeOfKind key)) (key : EdgeKey) :
    (∃ slot, there slot ∧ slot.bytes layout = (Slot.edge key).bytes layout) ↔
      ∃ slot, there slot ∧ slot.bytes layout = (Slot.edgeOfKind key).bytes layout := by
  constructor
  · rintro ⟨slot, hslot, hbytes⟩
    have hfamily := (bytes_eq_iff.mp hbytes).1
    cases slot with
    | edge other =>
        exact ⟨_, (h other).mp hslot, edgeOfKind_bytes_eq_iff.mpr (edge_bytes_eq_iff.mp hbytes)⟩
    | _ => simp [family] at hfamily
  · rintro ⟨slot, hslot, hbytes⟩
    have hfamily := (bytes_eq_iff.mp hbytes).1
    cases slot with
    | edgeOfKind other =>
        exact ⟨_, (h other).mpr hslot, edge_bytes_eq_iff.mpr (edgeOfKind_bytes_eq_iff.mp hbytes)⟩
    | _ => simp [family] at hfamily

theorem node_bytes_eq_iff {a : Slot} {id : String} :
    a.bytes layout = (Slot.node id).bytes layout ↔ a = .node id := by
  refine ⟨fun h => ?_, fun h => h ▸ rfl⟩
  obtain ⟨hfamily, hrest⟩ := bytes_eq_iff.mp h
  cases a with
  | node id' => rw [marked_single_inj hrest]
  | _ => simp [family] at hfamily

theorem nodeOfKind_bytes_eq_iff {a : Slot} {kind : NodeKind} {id : String} :
    a.bytes layout = (Slot.nodeOfKind kind id).bytes layout ↔ a = .nodeOfKind kind id := by
  refine ⟨fun h => ?_, fun h => h ▸ rfl⟩
  obtain ⟨hfamily, hrest⟩ := bytes_eq_iff.mp h
  cases a with
  | nodeOfKind kind' id' =>
      obtain ⟨hkind, hid⟩ := (marked_inj (hasNoColon_nodeKind _) (hasNoColon_nodeKind _)
        (List.cons_ne_nil _ _) (List.cons_ne_nil _ _)).mp hrest
      rw [marked_single_inj hid, NodeKind.name_injective hkind]
  | _ => simp [family] at hfamily

variable {used : String → Prop}

/-- **No two slots share a key**, as long as joined identifiers can be taken apart. -/
theorem bytes_injective (hused : Unambiguous used) {a b : Slot} (ha : a.IsUsed used)
    (hb : b.IsUsed used) (h : a.bytes layout = b.bytes layout) : a = b := by
  -- the parts before the identifiers tell the families apart
  have hfamily := (bytes_eq_iff.mp h).1
  cases a with
  | node id => exact (node_bytes_eq_iff.mp h.symm).symm
  | nodeOfKind kind id => exact (nodeOfKind_bytes_eq_iff.mp h.symm).symm
  | edge key =>
      cases b with
      | edge key' =>
          obtain ⟨hjoined, hk⟩ := edge_bytes_eq_iff.mp h
          obtain ⟨hs, ht⟩ := hused _ _ _ _ ha.1 ha.2 hb.1 hb.2 hjoined
          cases key
          cases key'
          simp_all
      | _ => simp [family] at hfamily
  | incoming key =>
      cases b with
      | incoming key' =>
          obtain ⟨hjoined, hk⟩ := incoming_bytes_eq_iff.mp h
          obtain ⟨ht, hs⟩ := hused _ _ _ _ ha.2 ha.1 hb.2 hb.1 hjoined
          cases key
          cases key'
          simp_all
      | _ => simp [family] at hfamily
  | edgeOfKind key =>
      cases b with
      | edgeOfKind key' =>
          obtain ⟨hjoined, hk⟩ := edgeOfKind_bytes_eq_iff.mp h
          obtain ⟨hs, ht⟩ := hused _ _ _ _ ha.1 ha.2 hb.1 hb.2 hjoined
          cases key
          cases key'
          simp_all
      | _ => simp [family] at hfamily

end Slot

end ProgramGraph
