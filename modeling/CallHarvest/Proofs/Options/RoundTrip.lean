import Mathlib.Data.List.Nodup
import CallHarvest.Options.Read
import CallHarvest.Options.Write
import CallHarvest.Proofs.Json.Quote

/-!
# Reading back options

Options that were written are read as the same options.  Each member that was written is read as
the field that it was written for, and what was left out keeps its default, which is what it was.

* `readPatterns?_write`, `readPath?_quote`, `readMode_write` — the values of the fields.
* `Options.withField` — options with one field taken from other ones.
* `Options.readMember_member` — one member sets one field.
* `Options.readMembers_members` — the members of some fields set just these.
* `Options.written_back` — all options are read back, and different ones are written differently.
-/

namespace CallHarvest

open Json (Care Value quote quote_append readItems readValue skipSpace skipSpace_cons)

/-! ### Texts with commas between them -/

theorem withCommas_singleton (text : List Char) : withCommas [text] = text :=
  List.intercalate_singleton

theorem withCommas_cons_cons (text next : List Char) (texts : List (List Char)) :
    withCommas (text :: next :: texts) = text ++ ',' :: withCommas (next :: texts) := by
  rw [withCommas, List.intercalate_cons_cons, List.append_assoc, List.singleton_append, withCommas]

/-- Texts with commas between them begin as the first one does. -/
theorem exists_withCommas_append {c : Char} {text : List Char} (h : text.head? = some c)
    (texts : List (List Char)) (rest : List Char) :
    ∃ tail, withCommas (text :: texts) ++ rest = c :: tail := by
  obtain ⟨text', rfl⟩ := List.head?_eq_some_iff.1 h
  cases texts with
  | nil => exact ⟨text' ++ rest, by rw [withCommas_singleton, List.cons_append]⟩
  | cons next texts => exact ⟨_, by rw [withCommas_cons_cons, List.append_assoc, List.cons_append]⟩

/-! ### The values of fields -/

/-- **Quoted texts with commas between them are read as these texts.** -/
theorem readItems_quoted (care : Care) (text : String) (texts : List String) (rest : List Char) :
    readItems care (withCommas ((text :: texts).map quote) ++ ']' :: rest) =
      .ok ((text :: texts).map Value.text, rest) := by
  induction texts generalizing text with
  | nil =>
    rw [List.map_singleton, withCommas_singleton, Json.readItems_eq, Json.readValue_quote]
    dsimp only
    rw [skipSpace_cons (by decide)]
    rfl
  | cons next texts ih =>
    rw [List.map_cons, List.map_cons, withCommas_cons_cons, List.append_assoc, Json.readItems_eq,
      Json.readValue_quote, List.cons_append]
    dsimp only
    rw [skipSpace_cons (by decide)]
    show (readItems care (withCommas ((next :: texts).map quote) ++ ']' :: rest)).map _ = _
    rw [ih]
    rfl

theorem mapM_text? (texts : List String) : (texts.map Value.text).mapM text? = some texts := by
  induction texts with
  | nil => rfl
  | cons text texts ih => rw [List.map_cons, List.mapM_cons, ih]; rfl

/-- The value as which patterns are written. -/
def Patterns.toValue : Patterns → Value
  | .single pattern => .text pattern
  | .list patterns => .array (patterns.map .text)

theorem Patterns.ofValue?_toValue (p : Patterns) : Patterns.ofValue? p.toValue = some p := by
  cases p with
  | single pattern => rfl
  | list patterns =>
    rw [toValue, ofValue?, mapM_text?]
    rfl

theorem readValue_write (p : Patterns) (rest : List Char) :
    readValue (.use (maxDepth - 1)) (p.write ++ rest) = .ok (p.toValue, rest) := by
  cases p with
  | single pattern => exact Json.readValue_quote _ pattern rest
  | list patterns =>
    have hinside : (Care.use (maxDepth - 1)).inside? = some (.use (maxDepth - 2)) := rfl
    have hwrite : (Patterns.list patterns).write ++ rest =
        '[' :: (withCommas (patterns.map quote) ++ ']' :: rest) := by simp [Patterns.write]
    rw [hwrite]
    cases patterns with
    | nil => exact Json.readValue_empty hinside rest
    | cons pattern patterns =>
      rw [Json.readValue_bracket hinside, readItems_quoted]
      · rfl
      · intro after hafter
        have hmark : (quote pattern).head? = some '\x22' := rfl
        obtain ⟨tail, htail⟩ :=
          exists_withCommas_append hmark (patterns.map quote) (']' :: rest)
        rw [List.map_cons, htail, skipSpace_cons (by decide)] at hafter
        simp at hafter

theorem readPatterns?_write (p : Patterns) (rest : List Char) :
    readPatterns? (p.write ++ rest) = .ok (some p, rest) := by
  have hvalue := Patterns.ofValue?_toValue p
  rw [readPatterns?, readValue_write]
  cases p with
  | single pattern => rfl
  | list patterns =>
    simp only [ofJson, bind, Except.bind, Patterns.toValue] at hvalue ⊢
    rw [hvalue]
    rfl

theorem readPath?_quote (path : String) (rest : List Char) :
    readPath? (quote path ++ rest) = .ok (some path, rest) := by
  have hplain : readPlain .path (quote path ++ rest) = .ok (.text path, rest) := by
    have hscalar := Json.readScalar_quote (.use 0) path rest
    rw [quote_append] at hscalar ⊢
    rw [readPlain, skipSpace_cons (by decide)]
    show ofJson (Json.readScalar _ _) = _
    rw [hscalar]
    rfl
  rw [readPath?, hplain]
  rfl

theorem readMode_write (m : Call.Mode) (rest : List Char) :
    readMode (m.write ++ rest) = .ok (m, rest) := by
  have hname := Json.readName_quote (.use 0) m.name rest
  rw [Call.Mode.write]
  rw [quote_append] at hname ⊢
  rw [readMode, skipSpace_cons (by decide)]
  show readModeName _ = _
  rw [readModeName, hname]
  simp only [ofJson, bind, Except.bind, Call.Mode.ofName?_name]
  rfl

/-! ### Fields -/

namespace Options

/-- Options with one field taken from other ones. -/
def withField (source o : Options) : Field → Options
  | .patterns list => o.withPatterns (source.patterns? list) list
  | .baseDir => { o with baseDir := source.baseDir }
  | .mode => { o with mode := source.mode }

/-- A field that was written is read back. -/
theorem readField_write {source : Options} {f : Field} {value : List Char}
    (h : source.writeField? f = some value) (o : Options) (rest : List Char) :
    o.readField f (value ++ rest) = .ok (withField source o f, rest) := by
  cases f with
  | patterns list =>
    obtain ⟨p, hp, rfl⟩ := Option.map_eq_some_iff.1 h
    rw [readField, readPatterns?_write, withField, hp]
    rfl
  | baseDir =>
    obtain ⟨path, hpath, rfl⟩ := Option.map_eq_some_iff.1 h
    rw [readField, readPath?_quote, withField, hpath]
    rfl
  | mode =>
    obtain rfl := Option.some.inj h
    rw [readField, readMode_write]
    rfl

/-- The fields that are present, in their order. -/
def present (o : Options) : List Field :=
  Field.all.filter fun f => (o.writeField? f).isSome

/-- The member of a field. -/
def member (o : Options) (f : Field) : List Char :=
  quote f.key ++ ':' :: (o.writeField? f).getD []

theorem members_eq (o : Options) : o.members = o.present.map o.member := by
  rw [members, present, ← List.filterMap_eq_map, List.filterMap_filter]
  refine List.filterMap_congr fun f _ => ?_
  cases hvalue : o.writeField? f <;> simp [member, hvalue]

/-- **One member sets one field.** -/
theorem readMember_member {source : Options} {f : Field} (hf : f ∈ source.present) (d : Draft)
    (hgiven : f ∉ d.given) (rest : List Char) :
    d.readMember (source.member f ++ rest) =
      .ok (⟨withField source d.options f, f :: d.given⟩, rest) := by
  obtain ⟨value, hvalue⟩ := Option.isSome_iff_exists.1 (List.mem_filter.1 hf).2
  rw [member, hvalue, List.append_assoc, Draft.readMember, Json.readName_quote]
  simp only [ofJson, bind, Except.bind, Field.ofKey?_key, if_neg hgiven, List.cons_append,
    Json.readColon_cons, Option.getD_some]
  rw [Draft.readField, readField_write hvalue]
  rfl

/-- How members are read: up to the closing brace after one of them. -/
theorem readMembers_of_readMember {d d' : Draft} {cs rest : List Char}
    (h : d.readMember cs = .ok (d', rest)) :
    readMembers d cs =
      match skipSpace rest with
      | '\x7d' :: after => .ok (d', after)
      | ',' :: after => readMembers d' after
      | other => .error (.fault (Json.faultAt other)) := by
  rw [readMembers]
  split
  · rename_i hmember
    cases h.symm.trans hmember
  · rename_i hmember
    obtain ⟨rfl, rfl⟩ := Prod.mk.inj (Except.ok.inj (h.symm.trans hmember))
    split <;> rename_i hrest <;> simp only [hrest]

/-- **The members of some fields set just these.** -/
theorem readMembers_members {source : Options} {fields : List Field} (hne : fields ≠ [])
    (hpresent : ∀ f ∈ fields, f ∈ source.present) (hnodup : fields.Nodup) (d : Draft)
    (hgiven : ∀ f ∈ fields, f ∉ d.given) (rest : List Char) :
    readMembers d (withCommas (fields.map source.member) ++ '\x7d' :: rest) =
      .ok (⟨fields.foldl (withField source) d.options, fields.reverse ++ d.given⟩, rest) := by
  induction fields generalizing d with
  | nil => exact absurd rfl hne
  | cons f fields ih =>
    have hmember := readMember_member (hpresent f List.mem_cons_self) d
      (hgiven f List.mem_cons_self)
    cases fields with
    | nil =>
      rw [List.map_singleton, withCommas_singleton, readMembers_of_readMember (hmember _),
        skipSpace_cons (by decide)]
      rfl
    | cons next fields =>
      obtain ⟨hnotin, hnodup⟩ := List.nodup_cons.1 hnodup
      rw [List.map_cons, List.map_cons, withCommas_cons_cons, List.append_assoc,
        readMembers_of_readMember (hmember _), List.cons_append, skipSpace_cons (by decide)]
      show readMembers _ (withCommas ((next :: fields).map source.member) ++ '\x7d' :: rest) = _
      rw [ih (List.cons_ne_nil _ _) (fun g hg => hpresent g (List.mem_cons_of_mem _ hg)) hnodup]
      · simp
      · intro g hg hmem
        rcases List.mem_cons.1 hmem with rfl | hmem
        · exact hnotin hg
        · exact hgiven g (List.mem_cons_of_mem _ hg) hmem

/-- Options are what their present fields make of the defaults. -/
theorem foldl_withField_present (o : Options) : o.present.foldl (withField o) {} = o := by
  rcases o with ⟨_ | _, _ | _, _ | _, _⟩ <;> rfl

theorem nodup_present (o : Options) : o.present.Nodup :=
  List.Nodup.filter _ (show Field.all.Nodup by decide)

theorem present_ne_nil (o : Options) : o.present ≠ [] :=
  List.ne_nil_of_mem (List.mem_filter.2 ⟨show Field.mode ∈ Field.all by decide, rfl⟩)

/-- The members of options begin with a quote. -/
theorem exists_members_append (o : Options) (rest : List Char) :
    ∃ tail, withCommas o.members ++ rest = '\x22' :: tail := by
  rw [members_eq]
  cases hfields : o.present with
  | nil => exact absurd hfields (present_ne_nil o)
  | cons f fields => exact exists_withCommas_append rfl _ _

theorem readOptions_write (o : Options) :
    readOptions o.write.toList = .ok (⟨o, o.present.reverse⟩, []) := by
  have hread : readMembers {} (withCommas o.members ++ ['\x7d']) =
      .ok (⟨o, o.present.reverse⟩, []) := by
    rw [members_eq, readMembers_members (present_ne_nil o) (fun f hf => hf) (nodup_present o) {}
      (fun f _ => List.not_mem_nil), foldl_withField_present, List.append_nil]
  obtain ⟨tail, htail⟩ := exists_members_append o ['\x7d']
  rw [htail] at hread
  rw [write, String.toList_ofList, List.cons_append, htail, readOptions,
    skipSpace_cons (by decide)]
  show (readMembers {} ('\x22' :: tail)).mapError _ = _
  rw [hread]
  rfl

/-- **All options are read back, and different ones are written differently.** -/
theorem written_back : (∀ o : Options, parse o.write = .ok o) ∧ Function.Injective write := by
  have hparse : ∀ o : Options, parse o.write = .ok o := by
    intro o
    rw [parse, readOptions_write]
    rfl
  refine ⟨hparse, fun o o' hwrite => ?_⟩
  have hsame := hparse o
  rw [hwrite, hparse o'] at hsame
  exact (Except.ok.inj hsame).symm

example :
    let o : Options := { included := some (.list []), excluded := some (.single "a\n\\") }
    o.write = "\x7b\"include\":[],\"exclude\":\"a\\n\\\\\",\"matchMode\":\"lazy\"\x7d" := by
  decide

end Options

end CallHarvest
