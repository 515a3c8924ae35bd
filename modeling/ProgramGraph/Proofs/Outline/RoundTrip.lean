import ProgramGraph.Outline.Wire
import ProgramGraph.Proofs.Json.RoundTrip
import ProgramGraph.Proofs.Wire.Members

set_option autoImplicit false

/-! # Outlines come back from JSON

Every member of an outline is written under a name that its reader knows, and left out just if it is
read as what it was. So an outline is read back whatever it holds (`json_roundTrip`), and in
whichever spelling each of its calls is written.
-/

namespace ProgramGraph

open ProgramGraph.Wire ProgramGraph.Wire.Members

/-! ## Values of members -/

theorem word64?_wordToWire (n : UInt64) : Value.word64? (wordToWire n) = some n := by
  have hbelow : n.toNat < UInt64.size := n.toNat_lt
  simp [Value.word64?, wordToWire, Value.natBelow?, Value.integer?, hbelow]

theorem word32?_integer (n : UInt32) : Value.word32? (.integer n.toNat) = some n := by
  have hbelow : n.toNat < UInt32.size := n.toNat_lt
  simp [Value.word32?, Value.natBelow?, Value.integer?, hbelow]

theorem textsOfWire?_textsToWire (items : List String) :
    textsOfWire? (textsToWire items) = some items :=
  Value.list?_map fun _ _ => rfl

theorem wordToWire_ne_null (n : UInt64) : wordToWire n ≠ .null := Value.noConfusion

/-! ## Reading what was written -/

theorem methodOfWire?_methodToWire (name : String) :
    methodOfWire? (methodToWire name) = some name := by
  refine bind_members?_ofMembers (by simp [Spelled]) (by decide) fun m hm => ?_
  simp only [List.forall₂_cons, List.headD_cons] at hm
  rw [orElse_of_lookup hm.1]
  rfl

/-- A call is read back in every spelling. -/
theorem CallOutline.ofWire?_toWireIn (spelling : CallSpelling) (c : CallOutline) :
    ofWire? (c.toWireIn spelling) = some c := by
  have hspelled : Spelled [["name", "function"], ["line", "line_number"], ["type"], ["arguments"]]
      [(spelling.nameKey, some (.text c.name)), (spelling.lineKey, c.line.map wordToWire),
        ("type", c.callType.map .text), ("arguments", c.arguments.map .text)] := by
    obtain ⟨asFunction, asLineNumber⟩ := spelling
    cases asFunction <;> cases asLineNumber <;>
      simp [Spelled, CallSpelling.nameKey, CallSpelling.lineKey]
  refine bind_members?_ofMembers hspelled (by decide) fun m hm => ?_
  simp only [List.forall₂_cons, List.headD_cons] at hm
  obtain ⟨hname, hline, htype, harguments, -⟩ := hm
  rw [orElse_of_lookup hname, optional_of_lookup hline word64?_wordToWire wordToWire_ne_null,
    optional_of_lookup htype (fun _ => rfl) nofun,
    optional_of_lookup harguments (fun _ => rfl) nofun]
  rfl

/-- A function is read back in every spelling of its calls. -/
theorem FunctionOutline.ofWire?_toWireIn (spell : CallOutline → CallSpelling)
    (f : FunctionOutline) : ofWire? (f.toWireIn spell) = some f := by
  refine bind_members?_ofMembers (by simp [Spelled]) (by decide) fun m hm => ?_
  simp only [List.forall₂_cons, List.headD_cons] at hm
  obtain ⟨hname, hqualified, hstart, hend, hcomplexity, hparameters, hcalls, hreturn, hdecorators,
    hdoc, hasync, hgenerator, -⟩ := hm
  rw [orElse_of_lookup hname, optional_of_lookup hqualified (fun _ => rfl) nofun,
    orElse_of_lookup hstart, word64?_wordToWire, orElse_of_lookup hend, word64?_wordToWire,
    optional_of_lookup hcomplexity word32?_integer nofun, orElse_of_lookup hparameters,
    textsOfWire?_textsToWire, orElse_of_lookup hcalls,
    Value.list?_map fun c _ => c.ofWire?_toWireIn (spell c),
    optional_of_lookup hreturn (fun _ => rfl) nofun, orElse_of_lookup hdecorators,
    textsOfWire?_textsToWire, optional_of_lookup hdoc (fun _ => rfl) nofun,
    orElse_of_lookup hasync, orElse_of_lookup hgenerator]
  rfl

theorem ClassOutline.ofWire?_toWire (c : ClassOutline) : ofWire? c.toWire = some c := by
  refine bind_members?_ofMembers (by simp [Spelled]) (by decide) fun m hm => ?_
  simp only [List.forall₂_cons, List.headD_cons] at hm
  obtain ⟨hname, hqualified, hstart, hend, hbases, hmethods, hattributes, hdecorators, hdoc,
    habstract, -⟩ := hm
  rw [orElse_of_lookup hname, optional_of_lookup hqualified (fun _ => rfl) nofun,
    orElse_of_lookup hstart, word64?_wordToWire, orElse_of_lookup hend, word64?_wordToWire,
    orElse_of_lookup hbases, textsOfWire?_textsToWire, orElse_of_lookup hmethods,
    Value.list?_map fun name _ => methodOfWire?_methodToWire name, orElse_of_lookup hattributes,
    textsOfWire?_textsToWire, orElse_of_lookup hdecorators, textsOfWire?_textsToWire,
    optional_of_lookup hdoc (fun _ => rfl) nofun, orElse_of_lookup habstract]
  rfl

theorem ImportOutline.ofWire?_toWire (i : ImportOutline) : ofWire? i.toWire = some i := by
  refine bind_members?_ofMembers (by simp [Spelled]) (by decide) fun m hm => ?_
  simp only [List.forall₂_cons, List.headD_cons] at hm
  obtain ⟨hmodule, hname, htype, halias, hline, -⟩ := hm
  rw [optional_of_lookup hmodule (fun _ => rfl) nofun,
    optional_of_lookup hname (fun _ => rfl) nofun, optional_of_lookup htype (fun _ => rfl) nofun,
    optional_of_lookup halias (fun _ => rfl) nofun,
    optional_of_lookup hline word64?_wordToWire wordToWire_ne_null]
  rfl

theorem Metrics.ofWire?_toWire (measures : Metrics) : ofWire? measures.toWire = some measures := by
  refine bind_members?_ofMembers (by simp [Spelled]) (by decide) fun m hm => ?_
  simp only [List.forall₂_cons, List.headD_cons] at hm
  rw [optional_of_lookup hm.1 word64?_wordToWire wordToWire_ne_null]
  rfl

/-- A file is read back in every spelling of its calls. -/
theorem FileOutline.ofWire?_toWireIn (spell : CallOutline → CallSpelling) (f : FileOutline) :
    ofWire? (f.toWireIn spell) = some f := by
  refine bind_members?_ofMembers (by simp [Spelled]) (by decide) fun m hm => ?_
  simp only [List.forall₂_cons, List.headD_cons] at hm
  obtain ⟨hpath, hlanguage, hsource, hmetrics, hencoding, hsize, hfunctions, hclasses, himports,
    -⟩ := hm
  rw [orElse_of_lookup hpath, orElse_of_lookup hlanguage,
    optional_of_lookup hsource (fun _ => rfl) nofun,
    optional_of_lookup hmetrics Metrics.ofWire?_toWire nofun,
    optional_of_lookup hencoding (fun _ => rfl) nofun,
    optional_of_lookup hsize word64?_wordToWire wordToWire_ne_null, orElse_of_lookup hfunctions,
    Value.list?_map fun fn _ => fn.ofWire?_toWireIn spell, orElse_of_lookup hclasses,
    Value.list?_map fun c _ => c.ofWire?_toWire, orElse_of_lookup himports,
    Value.list?_map fun i _ => i.ofWire?_toWire]
  rfl

/-! ## JSON keeps an outline -/

namespace Json

/-- JSON keeps what is written of members whose values it keeps. -/
theorem Keeps.ofMembers {members : List (String × Option Value)}
    (h : ∀ member ∈ members, ∀ v ∈ member.2, Keeps v) : Keeps (Value.ofMembers members) := by
  refine .map (fun entry hentry => ?_) fun entry hentry => ?_
  · obtain ⟨member, -, hgiven⟩ := List.mem_filterMap.mp hentry
    obtain ⟨v, -, rfl⟩ := Option.map_eq_some_iff.mp hgiven
    exact ⟨member.1, rfl⟩
  · obtain ⟨member, hmember, hgiven⟩ := List.mem_filterMap.mp hentry
    obtain ⟨v, hv, rfl⟩ := Option.map_eq_some_iff.mp hgiven
    exact h member hmember v hv

theorem Keeps.given {given : Value} (h : Keeps given) : ∀ v ∈ some given, Keeps v :=
  fun _ hv => Option.mem_some.mp hv ▸ h

/-- JSON keeps an optional value if it keeps what may be written for it. -/
theorem Keeps.optional {α : Type} {write : α → Value} (h : ∀ a, Keeps (write a)) (o : Option α) :
    ∀ v ∈ o.map write, Keeps v := by
  intro v hv
  obtain ⟨a, -, rfl⟩ := Option.map_eq_some_iff.mp hv
  exact h a

/-- JSON keeps a list of written items. -/
theorem Keeps.items {α : Type} {write : α → Value} (h : ∀ a, Keeps (write a)) (items : List α) :
    Keeps (.list (items.map write)) := by
  refine .list fun v hv => ?_
  obtain ⟨a, -, rfl⟩ := List.mem_map.mp hv
  exact h a

theorem keeps_word (n : UInt64) : Keeps (wordToWire n) := by
  have hbelow : n.toNat < UInt64.size := n.toNat_lt
  exact .integer (by omega) (by simp [UInt64.size] at hbelow; omega)

theorem keeps_texts (items : List String) : Keeps (textsToWire items) := .items .text items

end Json

open Json

theorem CallOutline.keeps_toWireIn (spelling : CallSpelling) (c : CallOutline) :
    Keeps (c.toWireIn spelling) := by
  refine .ofMembers ?_
  simp only [List.forall_mem_cons]
  exact ⟨.given (.text _), .optional keeps_word _, .optional .text _, .optional .text _, nofun⟩

theorem FunctionOutline.keeps_toWireIn (spell : CallOutline → CallSpelling) (f : FunctionOutline) :
    Keeps (f.toWireIn spell) := by
  have hcomplexity (n : UInt32) : Keeps (.integer n.toNat) := by
    have hbelow := n.toNat_lt
    exact .integer (by omega) (by omega)
  refine .ofMembers ?_
  simp only [List.forall_mem_cons]
  exact ⟨.given (.text _), .optional .text _, .given (keeps_word _), .given (keeps_word _),
    .optional hcomplexity _, .given (keeps_texts _),
    .given (.items (fun c => c.keeps_toWireIn _) _), .optional .text _, .given (keeps_texts _),
    .optional .text _, .given (.bool _), .given (.bool _), nofun⟩

theorem ClassOutline.keeps_toWire (c : ClassOutline) : Keeps c.toWire := by
  have hmethod (name : String) : Keeps (methodToWire name) := by
    refine .ofMembers ?_
    simp only [List.forall_mem_cons]
    exact ⟨.given (.text _), nofun⟩
  refine .ofMembers ?_
  simp only [List.forall_mem_cons]
  exact ⟨.given (.text _), .optional .text _, .given (keeps_word _), .given (keeps_word _),
    .given (keeps_texts _), .given (.items hmethod _), .given (keeps_texts _),
    .given (keeps_texts _), .optional .text _, .given (.bool _), nofun⟩

theorem ImportOutline.keeps_toWire (i : ImportOutline) : Keeps i.toWire := by
  refine .ofMembers ?_
  simp only [List.forall_mem_cons]
  exact ⟨.optional .text _, .optional .text _, .optional .text _, .optional .text _,
    .optional keeps_word _, nofun⟩

theorem Metrics.keeps_toWire (measures : Metrics) : Keeps measures.toWire := by
  refine .ofMembers ?_
  simp only [List.forall_mem_cons]
  exact ⟨.optional keeps_word _, nofun⟩

namespace FileOutline

theorem keeps_toWireIn (spell : CallOutline → CallSpelling) (f : FileOutline) :
    Keeps (f.toWireIn spell) := by
  refine .ofMembers ?_
  simp only [List.forall_mem_cons]
  exact ⟨.given (.text _), .given (.text _), .optional .text _, .optional Metrics.keeps_toWire _,
    .optional .text _, .optional keeps_word _,
    .given (.items (fun fn => fn.keeps_toWireIn spell) _),
    .given (.items ClassOutline.keeps_toWire _), .given (.items ImportOutline.keeps_toWire _),
    nofun⟩

/-- A file comes back from its JSON text in every spelling of its calls. -/
theorem parse?_print_toWireIn (spell : CallOutline → CallSpelling) (f : FileOutline) :
    (Json.parse? (Json.print (f.toWireIn spell))).bind ofWire? = some f := by
  rw [Json.parse?_print (f.keeps_toWireIn spell), Option.bind_some, f.ofWire?_toWireIn spell]

/-- **A file comes back from its JSON text**, and so it does from every text in which some of the
calls have their name as `function` or their line as `line_number`. -/
theorem json_roundTrip (f : FileOutline) :
    (Json.parse? (Json.print f.toWire)).bind ofWire? = some f ∧
      ∀ spell : CallOutline → CallSpelling,
        (Json.parse? (Json.print (f.toWireIn spell))).bind ofWire? = some f :=
  ⟨f.parse?_print_toWireIn _, fun spell => f.parse?_print_toWireIn spell⟩

end FileOutline

end ProgramGraph
