import Mathlib.Data.List.Forall2
import StackIR.Encoding.Stmt

/-! Data that is looser than an encoding, and still decodes.

Structs may carry fields that no one asks for, and may leave out a null span or an option that
is not there: `Datum.Loosens`. Of whatever node, every such form of its encoding is decoded into
the node again, so encoding what was decoded gives the one canonical form: `nodes_canonical`.
-/

namespace StackIR

namespace Datum

/-- The tags of variants start with a capital, and the names of fields do not. -/
def isTag (key : String) : Bool :=
  match key.toList with
  | [] => false
  | c :: _ => c.isUpper

def isAtom : Datum → Bool
  | .list _ | .record _ => false
  | _ => true

/-- The second list of fields is the first in looser form: the contents of fields are looser,
fields with the null span or without a value are dropped, and others are added anywhere, whose
keys are listed. In the encoding of a node only options are `null`.
-/
inductive FieldsLoosen (content : Datum → Datum → Prop)
    : (added : List String) → Fields → Fields → Prop
  | nil : FieldsLoosen content [] [] []
  | keep {added key datum datum' fields fields'} (loosens : content datum datum')
    (rest : FieldsLoosen content added fields fields')
    : FieldsLoosen content added ((key, datum) :: fields) ((key, datum') :: fields')
  | add {added key datum fields fields'} (rest : FieldsLoosen content added fields fields')
    : FieldsLoosen content (key :: added) fields ((key, datum) :: fields')
  | dropSpan {added fields fields'} (rest : FieldsLoosen content added fields fields')
    : FieldsLoosen content added (("span", Span.null.toDatum) :: fields) fields'
  | dropNull {added key fields fields'} (rest : FieldsLoosen content added fields fields')
    : FieldsLoosen content added ((key, .null) :: fields) fields'

/-- The second datum is a looser form of the first, in any number of places. A struct is told
from a variant by its keys.
-/
inductive Loosens : Datum → Datum → Prop
  | atom {datum} (isAtom : datum.isAtom = true) : Loosens datum datum
  | list {items items'} (each : List.Forall₂ Loosens items items')
    : Loosens (.list items) (.list items')
  | variant {tag content content'} (isTag : isTag tag = true)
    (inner : Loosens content content')
    : Loosens (.variant tag content) (.variant tag content')
  | struct {added fields fields'} (noTag : ∀ key ∈ fields.map Prod.fst, isTag key = false)
    (unknown : ∀ key ∈ fields.map Prod.fst, key ∉ added)
    (inner : FieldsLoosen Loosens added fields fields')
    : Loosens (.record fields) (.record fields')

-----------------------------------------------------------------------------------------
-- What is left of a field
-----------------------------------------------------------------------------------------

/-- What became of the content of the field `key`. -/
inductive FieldLoosens (key : String) : Option Datum → Option Datum → Prop
  | absent : FieldLoosens key none none
  | kept {datum datum'} (loosens : Loosens datum datum')
    : FieldLoosens key (some datum) (some datum')
  | noSpan (isSpan : key = "span") : FieldLoosens key (some Span.null.toDatum) none
  | noValue : FieldLoosens key (some .null) none

/-- All fields of the first struct can be found in the second, unless they may be left out. -/
def Fields.Loosen (fields fields' : Fields) : Prop :=
  ∀ key ∈ fields.map Prod.fst, FieldLoosens key (fields.lookup key) (fields'.lookup key)

theorem lookup_eq_none {fields : Fields} {key : String} (absent : key ∉ fields.map Prod.fst)
    : fields.lookup key = none := by
  induction fields with
  | nil => rfl
  | cons field fields ih =>
      rw [List.map_cons, List.mem_cons, not_or] at absent
      rw [List.lookup_cons, beq_eq_false_iff_ne.mpr absent.1]
      exact ih absent.2

/-- A field that is dropped is not found any more, since its key occurs once. -/
theorem lookup_of_dropped {fields fields' : Fields} {key : String}
    (found : FieldLoosens key (fields.lookup key) (fields'.lookup key))
    (absent : key ∉ fields.map Prod.fst)
    : fields'.lookup key = none := by
  rw [lookup_eq_none absent] at found
  cases gone : fields'.lookup key with
  | none => rfl
  | some datum =>
      rw [gone] at found
      cases found

/-- Looking up a known key meets no added field, by induction on the changes. -/
theorem FieldsLoosen.lookup {added : List String} {fields fields' : Fields} {key : String}
    (loosen : FieldsLoosen Loosens added fields fields') (unknown : key ∉ added)
    (distinct : (fields.map Prod.fst).Nodup)
    : FieldLoosens key (fields.lookup key) (fields'.lookup key) := by
  induction loosen with
  | nil => exact .absent
  | @keep added other datum datum' fields fields' loosens rest ih =>
      rw [List.lookup_cons, List.lookup_cons]
      cases same : key == other with
      | true => exact .kept loosens
      | false => exact ih unknown (List.nodup_cons.mp distinct).2
  | @add added other datum fields fields' rest ih =>
      rw [List.mem_cons, not_or] at unknown
      rw [List.lookup_cons (k := other), beq_eq_false_iff_ne.mpr unknown.1]
      exact ih unknown.2 distinct
  | @dropSpan added fields fields' rest ih =>
      obtain ⟨absent, distinct⟩ := List.nodup_cons.mp distinct
      have found := ih unknown distinct
      rw [List.lookup_cons]
      cases same : key == "span" with
      | true =>
          obtain rfl := beq_iff_eq.mp same
          rw [lookup_of_dropped found absent]
          exact .noSpan rfl
      | false => exact found
  | @dropNull added other fields fields' rest ih =>
      obtain ⟨absent, distinct⟩ := List.nodup_cons.mp distinct
      have found := ih unknown distinct
      rw [List.lookup_cons]
      cases same : key == other with
      | true =>
          obtain rfl := beq_iff_eq.mp same
          rw [lookup_of_dropped found absent]
          exact .noValue
      | false => exact found

-----------------------------------------------------------------------------------------
-- Looser forms of structs, variants and lists
-----------------------------------------------------------------------------------------

variable {datum datum' : Datum} {fields fields' : Fields} {key : String}

/-- Records that are structs, by their keys: these are distinct, and none is a tag. -/
def isStruct (keys : List String) : Bool := keys.all (!isTag ·) && decide keys.Nodup

/-- A looser form of a struct is a struct in which all fields are found that may not be left
out.
-/
theorem Loosens.of_struct (loosens : Loosens (.record fields) datum) (keys : List String)
    (same : fields.map Prod.fst = keys) (struct : isStruct keys = true)
    : ∃ fields', datum = .record fields' ∧ fields.Loosen fields' := by
  subst same
  simp only [isStruct, Bool.and_eq_true, decide_eq_true_eq, List.all_eq_true,
    Bool.not_eq_true'] at struct
  obtain ⟨noTag, distinct⟩ := struct
  generalize same : Datum.record fields = strict at loosens
  cases loosens with
  | atom isAtom =>
      subst same
      cases isAtom
  | list each => cases same
  | variant isTag inner =>
      cases same
      exact absurd isTag (by simp [noTag])
  | struct noTag unknown inner =>
      cases same
      exact ⟨_, rfl, fun key member => inner.lookup (unknown key member) distinct⟩

/-- A looser form of a variant is the same variant. -/
theorem Loosens.of_variant {tag : String} {content : Datum} (isTag : isTag tag = true)
    (loosens : Loosens (.variant tag content) datum)
    : ∃ content', datum = .variant tag content' ∧ Loosens content content' := by
  generalize same : Datum.variant tag content = strict at loosens
  cases loosens with
  | atom isAtom =>
      subst same
      cases isAtom
  | list each => cases same
  | variant isTag inner =>
      cases same
      exact ⟨_, rfl, inner⟩
  | struct noTag unknown inner =>
      cases same
      exact absurd isTag (by simp [noTag])

theorem Loosens.of_list {items : List Datum} (loosens : Loosens (.list items) datum)
    : ∃ items', datum = .list items' ∧ List.Forall₂ Loosens items items' := by
  cases loosens with
  | atom isAtom => cases isAtom
  | list each => exact ⟨_, rfl, each⟩

/-- What is neither a list nor a record has no looser form than itself. -/
theorem Loosens.eq_of_isAtom (isAtom : datum.isAtom = true) (loosens : Loosens datum datum')
    : datum' = datum := by
  cases loosens with
  | atom => rfl
  | list | variant | struct => cases isAtom

-----------------------------------------------------------------------------------------
-- Reading the fields of a looser struct
-----------------------------------------------------------------------------------------

/-- All looser forms of the encoding of the value decode into the value. -/
def Tolerates {α : Type} (encode : α → Datum) (decode : Datum → Option α) (value : α) : Prop :=
  ∀ datum, Loosens (encode value) datum → decode datum = some value

theorem Fields.Loosen.of_lookup (loosen : fields.Loosen fields')
    (found : fields.lookup key = some datum)
    : FieldLoosens key (some datum) (fields'.lookup key) := by
  rw [← found]
  refine loosen key (Classical.byContradiction fun absent => ?_)
  rw [lookup_eq_none absent] at found
  cases found

/-- A field that is written and may not be left out is found in looser form. -/
theorem Fields.Loosen.exists_lookup (loosen : fields.Loosen fields')
    (found : fields.lookup key = some datum) (notSpan : key ≠ "span") (notNull : datum ≠ .null)
    : ∃ datum', fields'.lookup key = some datum' ∧ Loosens datum datum' := by
  have left := loosen.of_lookup found
  generalize looser : fields'.lookup key = datum? at left
  cases left with
  | kept loosens => exact ⟨_, rfl, loosens⟩
  | noSpan isSpan => exact absurd isSpan notSpan
  | noValue => exact absurd rfl notNull

theorem Fields.Loosen.read {α : Type} {encode : α → Datum} {decode : Datum → Option α} {value : α}
    (loosen : fields.Loosen fields') (key : String) (tolerates : Tolerates encode decode value)
    (found : fields.lookup key = some (encode value)) (notSpan : key ≠ "span")
    (notNull : encode value ≠ .null)
    : Fields.read key decode fields' = some value := by
  obtain ⟨datum', looser, loosens⟩ := loosen.exists_lookup found notSpan notNull
  rw [Fields.read, looser, Option.bind_some, tolerates datum' loosens]

theorem Fields.Loosen.span? {span : Span} (loosen : fields.Loosen fields')
    (tolerates : Tolerates Span.toDatum Span.ofDatum? span)
    (found : fields.lookup "span" = some span.toDatum)
    : fields'.span? = some span := by
  have left := loosen.of_lookup found
  generalize looser : fields'.lookup "span" = datum? at left
  generalize same : some span.toDatum = strict? at left
  rw [Fields.span?, Fields.readOr, looser]
  cases left with
  | absent => cases same
  | kept loosens =>
      cases same
      exact tolerates _ loosens
  | noSpan =>
      have isNull : Span.ofDatum? span.toDatum = Span.ofDatum? Span.null.toDatum :=
        congrArg Span.ofDatum? (Option.some.inj same)
      rw [Span.ofDatum?_toDatum, Span.ofDatum?_toDatum] at isNull
      exact isNull.symm
  | noValue => cases same

theorem Loosens.ne_null (loosens : Loosens datum datum') (notNull : datum ≠ .null)
    : datum' ≠ .null := by
  intro isNull
  subst isNull
  cases loosens with
  | atom => exact notNull rfl

/-- An option is found with its value, or not at all if it has none. -/
theorem Fields.Loosen.readOption {α : Type} {encode : α → Datum} {decode : Datum → Option α}
    {value? : Option α} (loosen : fields.Loosen fields') (key : String)
    (tolerates : ∀ value, Tolerates encode decode value) (notNull : ∀ value, encode value ≠ .null)
    (found : fields.lookup key = some (ofOption encode value?)) (notSpan : key ≠ "span")
    : Fields.readOption key decode fields' = some value? := by
  cases value? with
  | some value =>
      obtain ⟨datum', looser, loosens⟩ := loosen.exists_lookup found notSpan (notNull value)
      have read := tolerates value datum' loosens
      have notNull' := loosens.ne_null (notNull value)
      rw [Fields.readOption, looser]
      cases datum' with
      | null => exact absurd rfl notNull'
      | _ => simp only [optionOf?, read, Option.map_some]
  | none =>
      have left := loosen.of_lookup found
      generalize looser : fields'.lookup key = datum? at left
      rw [Fields.readOption, looser]
      cases left with
      | kept loosens =>
          rw [loosens.eq_of_isAtom rfl]
          rfl
      | noValue => rfl

/-- The fields of a struct in a field. -/
theorem Fields.Loosen.subrecord? {inner : Fields} (loosen : fields.Loosen fields') (key : String)
    (found : fields.lookup key = some (.record inner)) (notSpan : key ≠ "span")
    (keys : List String) (same : inner.map Prod.fst = keys) (struct : isStruct keys = true)
    : ∃ inner' smaller, fields'.subrecord? key = some ⟨inner', smaller⟩
        ∧ inner.Loosen inner' := by
  obtain ⟨datum', looser, loosens⟩ := loosen.exists_lookup found notSpan Datum.noConfusion
  obtain ⟨inner', rfl, looserInner⟩ := loosens.of_struct keys same struct
  have smaller := Fields.sizeOf_lt_of_lookup looser
  simp only [record.sizeOf_spec] at smaller
  refine ⟨inner', by omega, ?_, looserInner⟩
  rw [Fields.subrecord?]
  grind

/-- The items of a list in a field. -/
theorem Fields.Loosen.sublist? {items : List Datum} (loosen : fields.Loosen fields') (key : String)
    (found : fields.lookup key = some (.list items)) (notSpan : key ≠ "span")
    : ∃ items' smaller, fields'.sublist? key = some ⟨items', smaller⟩
        ∧ List.Forall₂ Loosens items items' := by
  obtain ⟨datum', looser, loosens⟩ := loosen.exists_lookup found notSpan Datum.noConfusion
  obtain ⟨items', rfl, each⟩ := loosens.of_list
  have smaller := Fields.sizeOf_lt_of_lookup looser
  simp only [list.sizeOf_spec] at smaller
  refine ⟨items', by omega, ?_, each⟩
  rw [Fields.sublist?]
  grind

/-- Lists tolerate what their items tolerate. -/
theorem listOf?_tolerates {α : Type} {encode : α → Datum} {decode : Datum → Option α}
    (tolerates : ∀ value, Tolerates encode decode value) (values : List α)
    : Tolerates (ofList encode) (listOf? decode) values := by
  intro datum loosens
  obtain ⟨items, rfl, each⟩ := loosens.of_list
  change items.mapM decode = some values
  clear loosens
  induction values generalizing items with
  | nil =>
      cases each
      rfl
  | cons value values ih =>
      obtain - | ⟨first, rest⟩ := each
      have restRead := ih _ rest
      simp [tolerates value _ first, restRead]

theorem word64?_tolerates (n : UInt64)
    : Tolerates (fun n : UInt64 => ofNat n.toNat) word64? n := by
  intro datum loosens
  rw [loosens.eq_of_isAtom rfl, word64?_ofNat]

theorem word32?_tolerates (n : UInt32)
    : Tolerates (fun n : UInt32 => ofNat n.toNat) word32? n := by
  intro datum loosens
  rw [loosens.eq_of_isAtom rfl, word32?_ofNat]

theorem string?_tolerates (text : String) : Tolerates string string? text := by
  intro datum loosens
  rw [loosens.eq_of_isAtom rfl, string?]

end Datum

-----------------------------------------------------------------------------------------
-- Every node is decoded from all looser forms of its encoding
-----------------------------------------------------------------------------------------

open Datum

theorem Span.tolerates (span : Span) : Tolerates toDatum ofDatum? span := by
  intro datum loosens
  obtain ⟨fields, rfl, loosen⟩ := loosens.of_struct ["file", "lo", "hi"] rfl (by decide)
  have file := loosen.read "file" (word64?_tolerates span.file) rfl (by decide) Datum.noConfusion
  have lo := loosen.read "lo" (word32?_tolerates span.lo) rfl (by decide) Datum.noConfusion
  have hi := loosen.read "hi" (word32?_tolerates span.hi) rfl (by decide) Datum.noConfusion
  simp [ofDatum?, fields?, file, lo, hi]

/-- A looser form of a variant that holds a struct with a span is the same variant of a struct
with the same span.
-/
theorem Datum.Loosens.of_node {tag : String} {span : Span} {fields : Fields} {datum : Datum}
    (loosens : Loosens (.variant tag (.record (("span", span.toDatum) :: fields))) datum)
    (keys : List String) (same : fields.map Prod.fst = keys)
    (legal : isTag tag = true ∧ isStruct ("span" :: keys) = true)
    : ∃ fields', datum = .variant tag (.record fields')
        ∧ Fields.Loosen (("span", span.toDatum) :: fields) fields'
        ∧ Fields.span? fields' = some span := by
  obtain ⟨content, rfl, inner⟩ := Loosens.of_variant legal.1 loosens
  obtain ⟨fields', rfl, loosen⟩ :=
    inner.of_struct ("span" :: keys) (congrArg ("span" :: ·) same) legal.2
  exact ⟨fields', rfl, loosen, loosen.span? span.tolerates rfl⟩

theorem Name.tolerates (name : Name) : Tolerates toDatum ofDatum? name :=
  string?_tolerates name

theorem BuiltinHandle.tolerates (handle : BuiltinHandle) : Tolerates toDatum ofDatum? handle := by
  intro datum loosens
  rw [loosens.eq_of_isAtom rfl, ofDatum?_toDatum]

theorem VerbatimHandle.tolerates (handle : VerbatimHandle)
    : Tolerates toDatum ofDatum? handle := by
  intro datum loosens
  obtain ⟨fields, rfl, loosen⟩ := loosens.of_struct ["inputs", "outputs"] rfl (by decide)
  have inputs := loosen.read "inputs" (word64?_tolerates handle.inputs) rfl (by decide)
    Datum.noConfusion
  have outputs := loosen.read "outputs" (word64?_tolerates handle.outputs) rfl (by decide)
    Datum.noConfusion
  simp [ofDatum?, fields?, inputs, outputs]

theorem Ident.tolerates (ident : Ident) : Tolerates toDatum ofDatum? ident := by
  intro datum loosens
  obtain ⟨fields, rfl, loosen⟩ := loosens.of_struct ["span", "name"] rfl (by decide)
  have span := loosen.span? ident.span.tolerates rfl
  have name := loosen.read "name" (Name.tolerates ident.name) rfl (by decide) Datum.noConfusion
  simp [ofDatum?, fields?, span, name]

theorem Binding.tolerates (binding : Binding) : Tolerates toDatum ofDatum? binding := by
  intro datum loosens
  obtain ⟨fields, rfl, loosen⟩ := loosens.of_struct ["span", "name"] rfl (by decide)
  have span := loosen.span? binding.span.tolerates rfl
  have name := loosen.read "name" (Name.tolerates binding.name) rfl (by decide) Datum.noConfusion
  simp [ofDatum?, fields?, span, name]

theorem LiteralKind.tolerates (kind : LiteralKind) : Tolerates toDatum ofDatum? kind := by
  intro datum loosens
  rw [loosens.eq_of_isAtom rfl, ofDatum?_toDatum]

theorem Literal.tolerates (literal : Literal) : Tolerates toDatum ofDatum? literal := by
  intro datum loosens
  obtain ⟨fields, rfl, loosen⟩ := loosens.of_struct ["span", "kind", "value"] rfl (by decide)
  have span := loosen.span? literal.span.tolerates rfl
  have kind := loosen.read "kind" literal.kind.tolerates rfl (by decide) Datum.noConfusion
  have value := loosen.read "value" (string?_tolerates literal.value) rfl (by decide)
    Datum.noConfusion
  simp [ofDatum?, fields?, span, kind, value]

theorem Callee.tolerates (callee : Callee) : Tolerates toDatum ofDatum? callee := by
  intro datum loosens
  cases callee with
  | builtin span handle =>
      obtain ⟨fields, rfl, loosen, spanRead⟩ := Loosens.of_node loosens ["handle"] rfl (by decide)
      have handleRead := loosen.read "handle" handle.tolerates rfl (by decide) Datum.noConfusion
      simp [ofDatum?, variant, fields?, spanRead, handleRead]
  | verbatim span handle =>
      obtain ⟨fields, rfl, loosen, spanRead⟩ := Loosens.of_node loosens ["handle"] rfl (by decide)
      have handleRead := loosen.read "handle" handle.tolerates rfl (by decide) Datum.noConfusion
      simp [ofDatum?, variant, fields?, spanRead, handleRead]
  | user ident =>
      obtain ⟨content, rfl, inner⟩ := Loosens.of_variant (by decide) loosens
      simp [ofDatum?, variant, ident.tolerates content inner]

theorem Callee.toDatum_ne_null (callee : Callee) : callee.toDatum ≠ .null := by
  cases callee <;> simp [toDatum, variant]

/-- A call is decoded if its arguments are. -/
theorem Call.tolerates_of_args (call : Call)
    (args : ∀ data, List.Forall₂ Loosens (Expr.toData call.args) data
      → Expr.ofData? data = some call.args)
    : Tolerates toDatum ofDatum? call := by
  intro datum loosens
  obtain ⟨fields, rfl, loosen⟩ :=
    loosens.of_struct ["span", "function_name", "arguments"] rfl (by decide)
  have span := loosen.span? call.span.tolerates rfl
  have callee := loosen.read "function_name" call.callee.tolerates rfl (by decide)
    call.callee.toDatum_ne_null
  obtain ⟨data, smaller, listed, each⟩ := loosen.sublist? "arguments" rfl (by decide)
  simp [ofDatum?, span, callee, listed, args data each]

mutual
/-- Expressions, by induction on the expression. -/
theorem Expr.tolerates : ∀ expr : Expr, Tolerates Expr.toDatum Expr.ofDatum? expr
  | .ident i, datum, loosens => by
      obtain ⟨content, rfl, inner⟩ := Loosens.of_variant (by decide) loosens
      simp [Expr.ofDatum?, variant, i.tolerates content inner]
  | .literal l, datum, loosens => by
      obtain ⟨content, rfl, inner⟩ := Loosens.of_variant (by decide) loosens
      simp [Expr.ofDatum?, variant, l.tolerates content inner]
  | .call span callee args, datum, loosens => by
      obtain ⟨content, rfl, inner⟩ := Loosens.of_variant (by decide) loosens
      have read := Call.tolerates_of_args ⟨span, callee, args⟩
        (fun _ => Expr.ofData?_of_loosens args) content inner
      simp [Expr.ofDatum?, variant, Call.toExpr, read]
theorem Expr.ofData?_of_loosens : ∀ (exprs : List Expr) {data : List Datum},
    List.Forall₂ Loosens (Expr.toData exprs) data → Expr.ofData? data = some exprs
  | [], _, .nil => by simp [Expr.ofData?]
  | expr :: rest, _, .cons first others => by
      simp [Expr.ofData?, Expr.tolerates expr _ first, Expr.ofData?_of_loosens rest others]
end

theorem Call.tolerates (call : Call) : Tolerates toDatum ofDatum? call :=
  call.tolerates_of_args fun _ => Expr.ofData?_of_loosens call.args

/-- The fields of a block that a field holds. -/
theorem Datum.Fields.Loosen.block? {fields fields' : Fields} (loosen : fields.Loosen fields')
    (key : String) (block : Block) (found : fields.lookup key = some block.toDatum)
    (notSpan : key ≠ "span")
    : ∃ inner smaller, fields'.subrecord? key = some ⟨inner, smaller⟩
        ∧ block.toFields.Loosen inner :=
  loosen.subrecord? key (found.trans (congrArg some block.toDatum_eq_record)) notSpan
    ["span", "statements"] rfl (by decide)

mutual
/-- Statements, by induction on the statement. -/
theorem Stmt.tolerates (stmt : Stmt) : Tolerates Stmt.toDatum Stmt.ofDatum? stmt := by
  intro datum loosens
  cases stmt with
  | expr span value =>
      obtain ⟨fields, rfl, loosen, spanRead⟩ :=
        Loosens.of_node loosens ["expression"] rfl (by decide)
      have valueRead := loosen.read "expression" value.tolerates rfl (by decide)
        value.toDatum_ne_null
      simp [Stmt.ofDatum?, variant, spanRead, valueRead]
  | assign span targets value =>
      obtain ⟨fields, rfl, loosen, spanRead⟩ :=
        Loosens.of_node loosens ["variable_names", "value"] rfl (by decide)
      have targetsRead := loosen.read "variable_names"
        (listOf?_tolerates Ident.tolerates targets) rfl (by decide) Datum.noConfusion
      have valueRead := loosen.read "value" value.tolerates rfl (by decide)
        value.toDatum_ne_null
      simp [Stmt.ofDatum?, variant, spanRead, targetsRead, valueRead]
  | declare span bindings value =>
      obtain ⟨fields, rfl, loosen, spanRead⟩ :=
        Loosens.of_node loosens ["variables", "value"] rfl (by decide)
      have bindingsRead := loosen.read "variables"
        (listOf?_tolerates Binding.tolerates bindings) rfl (by decide) Datum.noConfusion
      have valueRead : Fields.readOption "value" Expr.ofDatum? fields = some value :=
        loosen.readOption "value" Expr.tolerates Expr.toDatum_ne_null rfl (by decide)
      simp [Stmt.ofDatum?, variant, spanRead, bindingsRead, valueRead]
  | define span name params returns body =>
      obtain ⟨fields, rfl, loosen, spanRead⟩ :=
        Loosens.of_node loosens ["name", "parameters", "return_variables", "body"] rfl (by decide)
      have nameRead := loosen.read "name" (Name.tolerates name) rfl (by decide) Datum.noConfusion
      have paramsRead := loosen.read "parameters"
        (listOf?_tolerates Binding.tolerates params) rfl (by decide) Datum.noConfusion
      have returnsRead := loosen.read "return_variables"
        (listOf?_tolerates Binding.tolerates returns) rfl (by decide) Datum.noConfusion
      obtain ⟨bodyFields, _, bodyFound, bodyLoosen⟩ := loosen.block? "body" body rfl (by decide)
      simp [Stmt.ofDatum?, variant, spanRead, nameRead, paramsRead, returnsRead, bodyFound,
        Block.ofFields?_of_loosen body bodyLoosen]
  | branch span condition body =>
      obtain ⟨fields, rfl, loosen, spanRead⟩ :=
        Loosens.of_node loosens ["condition", "body"] rfl (by decide)
      have conditionRead := loosen.read "condition" condition.tolerates rfl (by decide)
        condition.toDatum_ne_null
      obtain ⟨bodyFields, _, bodyFound, bodyLoosen⟩ := loosen.block? "body" body rfl (by decide)
      simp [Stmt.ofDatum?, variant, spanRead, conditionRead, bodyFound,
        Block.ofFields?_of_loosen body bodyLoosen]
  | switch span subject cases =>
      obtain ⟨fields, rfl, loosen, spanRead⟩ :=
        Loosens.of_node loosens ["expression", "cases"] rfl (by decide)
      have subjectRead := loosen.read "expression" subject.tolerates rfl (by decide)
        subject.toDatum_ne_null
      obtain ⟨data, _, casesFound, each⟩ := loosen.sublist? "cases" rfl (by decide)
      simp [Stmt.ofDatum?, variant, spanRead, subjectRead, casesFound,
        Case.ofData?_of_loosens cases each]
  | loop span pre condition post body =>
      obtain ⟨fields, rfl, loosen, spanRead⟩ :=
        Loosens.of_node loosens ["pre", "condition", "post", "body"] rfl (by decide)
      have conditionRead := loosen.read "condition" condition.tolerates rfl (by decide)
        condition.toDatum_ne_null
      obtain ⟨preFields, _, preFound, preLoosen⟩ := loosen.block? "pre" pre rfl (by decide)
      obtain ⟨postFields, _, postFound, postLoosen⟩ := loosen.block? "post" post rfl (by decide)
      obtain ⟨bodyFields, _, bodyFound, bodyLoosen⟩ := loosen.block? "body" body rfl (by decide)
      simp [Stmt.ofDatum?, variant, spanRead, conditionRead, preFound, postFound, bodyFound,
        Block.ofFields?_of_loosen pre preLoosen, Block.ofFields?_of_loosen post postLoosen,
        Block.ofFields?_of_loosen body bodyLoosen]
  | breakLoop span | continueLoop span | leave span =>
      obtain ⟨fields, rfl, loosen, spanRead⟩ := Loosens.of_node loosens [] rfl (by decide)
      simp [Stmt.ofDatum?, variant, spanRead]
  | block body =>
      obtain ⟨content, rfl, inner⟩ := Loosens.of_variant (by decide) loosens
      rw [body.toDatum_eq_record] at inner
      obtain ⟨fields, rfl, loosen⟩ := inner.of_struct ["span", "statements"] rfl (by decide)
      have spanRead := loosen.span? body.span.tolerates rfl
      simp [Stmt.ofDatum?, variant, spanRead, Block.ofFields?_of_loosen body loosen]
theorem Block.ofFields?_of_loosen (block : Block) {fields : Fields}
    (loosen : block.toFields.Loosen fields)
    : Block.ofFields? fields = some block := by
  cases block with
  | mk span stmts =>
      have spanRead := loosen.span? span.tolerates rfl
      obtain ⟨data, _, stmtsFound, each⟩ := loosen.sublist? "statements" rfl (by decide)
      rw [Block.ofFields?]
      simp [spanRead, stmtsFound, Stmt.ofData?_of_loosens stmts each]
theorem Stmt.ofData?_of_loosens : ∀ (stmts : List Stmt) {data : List Datum},
    List.Forall₂ Loosens (Stmt.toData stmts) data → Stmt.ofData? data = some stmts
  | [], _, .nil => by simp [Stmt.ofData?]
  | stmt :: rest, _, .cons first others => by
      simp [Stmt.ofData?, Stmt.tolerates stmt _ first, Stmt.ofData?_of_loosens rest others]
theorem Case.tolerates (case : Case) : Tolerates Case.toDatum Case.ofDatum? case := by
  intro datum loosens
  cases case with
  | mk span label body =>
      obtain ⟨fields, rfl, loosen⟩ :=
        loosens.of_struct ["span", "value", "body"] rfl (by decide)
      have spanRead := loosen.span? span.tolerates rfl
      have labelRead : Fields.readOption "value" Literal.ofDatum? fields = some label :=
        loosen.readOption "value" Literal.tolerates Literal.toDatum_ne_null rfl (by decide)
      obtain ⟨bodyFields, _, bodyFound, bodyLoosen⟩ := loosen.block? "body" body rfl (by decide)
      simp [Case.ofDatum?, spanRead, labelRead, bodyFound,
        Block.ofFields?_of_loosen body bodyLoosen]
theorem Case.ofData?_of_loosens : ∀ (cases : List Case) {data : List Datum},
    List.Forall₂ Loosens (Case.toData cases) data → Case.ofData? data = some cases
  | [], _, .nil => by simp [Case.ofData?]
  | case :: rest, _, .cons first others => by
      simp [Case.ofData?, Case.tolerates case _ first, Case.ofData?_of_loosens rest others]
end

theorem Block.tolerates (block : Block) : Tolerates toDatum ofDatum? block := by
  intro datum loosens
  rw [block.toDatum_eq_record] at loosens
  obtain ⟨fields, rfl, loosen⟩ := loosens.of_struct ["span", "statements"] rfl (by decide)
  exact Block.ofFields?_of_loosen block loosen

-----------------------------------------------------------------------------------------
-- Canonical forms
-----------------------------------------------------------------------------------------

/-- An encoding is a canonical form of all data that decodes into the same value. -/
structure Datum.Canonical {α : Type} (encode : α → Datum) (decode : Datum → Option α) : Prop where
  /-- Nothing is lost. -/
  lossless : ∀ value, decode (encode value) = some value
  /-- Looser forms of the encoding mean the same. -/
  tolerant : ∀ value datum, Loosens (encode value) datum → decode datum = some value
  /-- What was decoded once and encoded stays as it is. -/
  stable : ∀ datum value, decode datum = some value
    → (decode (encode value)).map encode = some (encode value)

theorem Datum.Canonical.of_tolerates {α : Type} {encode : α → Datum} {decode : Datum → Option α}
    (lossless : ∀ value, decode (encode value) = some value)
    (tolerates : ∀ value, Tolerates encode decode value)
    : Canonical encode decode where
  lossless
  tolerant := tolerates
  stable datum value _ := by rw [lossless, Option.map_some]

/-- Every node of a program, and everything that nodes are made of, is decoded from its encoding
and from all looser forms of it, and its encoding is their canonical form.
-/
theorem nodes_canonical
    : Canonical Block.toDatum Block.ofDatum?
      ∧ Canonical Stmt.toDatum Stmt.ofDatum?
      ∧ Canonical Case.toDatum Case.ofDatum?
      ∧ Canonical Binding.toDatum Binding.ofDatum?
      ∧ Canonical Expr.toDatum Expr.ofDatum?
      ∧ Canonical Call.toDatum Call.ofDatum?
      ∧ Canonical Callee.toDatum Callee.ofDatum?
      ∧ Canonical Literal.toDatum Literal.ofDatum?
      ∧ Canonical LiteralKind.toDatum LiteralKind.ofDatum?
      ∧ Canonical Ident.toDatum Ident.ofDatum?
      ∧ Canonical BuiltinHandle.toDatum BuiltinHandle.ofDatum?
      ∧ Canonical VerbatimHandle.toDatum VerbatimHandle.ofDatum?
      ∧ Canonical Name.toDatum Name.ofDatum?
      ∧ Canonical Span.toDatum Span.ofDatum? := by
  refine ⟨?_, ?_, ?_, ?_, ?_, ?_, ?_, ?_, ?_, ?_, ?_, ?_, ?_, ?_⟩
  · exact .of_tolerates Block.ofDatum?_toDatum Block.tolerates
  · exact .of_tolerates Stmt.ofDatum?_toDatum Stmt.tolerates
  · exact .of_tolerates Case.ofDatum?_toDatum Case.tolerates
  · exact .of_tolerates Binding.ofDatum?_toDatum Binding.tolerates
  · exact .of_tolerates Expr.ofDatum?_toDatum Expr.tolerates
  · exact .of_tolerates Call.ofDatum?_toDatum Call.tolerates
  · exact .of_tolerates Callee.ofDatum?_toDatum Callee.tolerates
  · exact .of_tolerates Literal.ofDatum?_toDatum Literal.tolerates
  · exact .of_tolerates LiteralKind.ofDatum?_toDatum LiteralKind.tolerates
  · exact .of_tolerates Ident.ofDatum?_toDatum Ident.tolerates
  · exact .of_tolerates BuiltinHandle.ofDatum?_toDatum BuiltinHandle.tolerates
  · exact .of_tolerates VerbatimHandle.ofDatum?_toDatum VerbatimHandle.tolerates
  · exact .of_tolerates Name.ofDatum?_toDatum Name.tolerates
  · exact .of_tolerates Span.ofDatum?_toDatum Span.tolerates

/-- The block of `let x` in looser form: without its spans and the value, and with a note on the
block and a type of `x`.
-/
example : Loosens
    (Block.toDatum (.ofStmts [.declare .null [.ofName "x"] none]))
    (.record [("note", .bool true), ("statements", .list [
      .variant "VariableDeclaration" (.record [
        ("variables", .list [.record [("name", .string "x"), ("type", .null)]])
      ])
    ])]) := by
  have binding : Loosens (Binding.toDatum (.ofName "x"))
      (.record [("name", .string "x"), ("type", .null)]) :=
    .struct (by decide) (by decide) (.dropSpan (.keep (.atom rfl) (.add .nil)))
  have declaration : Loosens (Stmt.toDatum (.declare .null [.ofName "x"] none))
      (.variant "VariableDeclaration" (.record [
        ("variables", .list [.record [("name", .string "x"), ("type", .null)]])])) :=
    .variant (by decide) (.struct (by decide) (by decide)
      (.dropSpan (.keep (.list (.cons binding .nil)) (.dropNull .nil))))
  exact .struct (by decide) (by decide)
    (.add (.dropSpan (.keep (.list (.cons declaration .nil)) .nil)))

end StackIR
