import Mathlib.Data.List.Nodup
import ToolContract.Call.Prepared

/-!
# Taking extra properties

An extra property is taken or refused by what stands under its name alone, and extra properties of
different names are taken independently of each other. If none of them is refused, the texts supplied
stand under their context keys and the other entries are left; else the first one that offends ends
the run, with the entries taken out until then.
-/

set_option autoImplicit false

namespace ToolContract

namespace ExtraProperty

def AbsentFrom (extra : ExtraProperty) (entries : Entries Json) : Prop :=
  entries.get? extra.name = none ∨ entries.get? extra.name = some .null

instance (extra : ExtraProperty) (entries : Entries Json) : Decidable (extra.AbsentFrom entries) :=
  inferInstanceAs (Decidable (_ ∨ _))

/-- The property is taken from the entries without a refusal: it is a text, or absent and not
required. -/
def TakenFrom (extra : ExtraProperty) (entries : Entries Json) : Prop :=
  (∃ text, entries.get? extra.name = some (.str text)) ∨
    extra.AbsentFrom entries ∧ extra.required = false

/-- The property is required and absent, or its value is neither a text nor `null`. -/
def OffendsIn (extra : ExtraProperty) (entries : Entries Json) : Prop :=
  extra.required = true ∧ extra.AbsentFrom entries ∨
    ∃ value, entries.get? extra.name = some value ∧ value ≠ .null ∧ ∀ text, value ≠ .str text

/-- The error that a property which offends ends in. -/
def refusal (extra : ExtraProperty) (entries : Entries Json) : CallError :=
  if extra.AbsentFrom entries then .missingExtra extra.name else .extraNotText extra.name

/-- The text that the entries supply for the property. -/
def text? (extra : ExtraProperty) (entries : Entries Json) : Option String :=
  (entries.get? extra.name).bind Json.text?

/-- Puts the text of the property, if it is supplied, under the context key. -/
def supply (extra : ExtraProperty) (entries : Entries Json) (context : Context) : Context :=
  match extra.text? entries with
  | some text => context.insert extra.contextKey text
  | none => context

private theorem text?_eq_some_iff {extra : ExtraProperty} {entries : Entries Json} {text : String} :
    extra.text? entries = some text ↔ entries.get? extra.name = some (.str text) := by
  rw [text?, Option.bind_eq_some_iff]
  constructor
  · rintro ⟨value, found, held⟩
    cases value with
    | str other => rw [found, ← Option.some.inj held]
    | _ => cases held
  · exact fun found => ⟨_, found, rfl⟩

theorem not_offendsIn_iff {extra : ExtraProperty} {entries : Entries Json} :
    ¬ extra.OffendsIn entries ↔ extra.TakenFrom entries := by
  rw [OffendsIn, TakenFrom, AbsentFrom]
  cases found : entries.get? extra.name with
  | none => simp
  | some value => cases value <;> simp

/-! ### The name alone decides -/

section

variable {extra : ExtraProperty} {left right : Entries Json}

theorem takenFrom_congr (same : left.get? extra.name = right.get? extra.name) :
    extra.TakenFrom left ↔ extra.TakenFrom right := by
  rw [TakenFrom, TakenFrom, AbsentFrom, AbsentFrom, same]

theorem offendsIn_congr (same : left.get? extra.name = right.get? extra.name) :
    extra.OffendsIn left ↔ extra.OffendsIn right := by
  rw [OffendsIn, OffendsIn, AbsentFrom, AbsentFrom, same]

theorem refusal_congr (same : left.get? extra.name = right.get? extra.name) :
    extra.refusal left = extra.refusal right := by
  have absent : extra.AbsentFrom left ↔ extra.AbsentFrom right := by
    rw [AbsentFrom, AbsentFrom, same]
  rw [refusal, refusal]
  exact if_congr absent rfl rfl

theorem supply_congr (same : left.get? extra.name = right.get? extra.name) (context : Context) :
    extra.supply left context = extra.supply right context := by
  rw [supply, supply, text?, text?, same]

end

end ExtraProperty

namespace Context

/-! ## What is left -/

def remaining (extras : List ExtraProperty) (entries : Entries Json) : Entries Json :=
  entries.filter fun entry => entry.1 ∉ extras.map ExtraProperty.name

theorem mem_remaining_iff {extras : List ExtraProperty} {entries : Entries Json}
    {entry : String × Json} :
    entry ∈ remaining extras entries ↔
      entry ∈ entries ∧ ∀ extra ∈ extras, extra.name ≠ entry.1 := by
  simp [remaining, List.mem_filter]

private theorem remaining_nil (entries : Entries Json) : remaining [] entries = entries := by
  apply List.filter_eq_self.mpr
  intro entry _
  rfl

private theorem remaining_cons (extra : ExtraProperty) (extras : List ExtraProperty)
    (entries : Entries Json) :
    remaining (extra :: extras) entries = remaining extras (entries.erase extra.name) := by
  rw [remaining, remaining, Entries.erase, List.filter_filter]
  refine List.filter_congr fun entry _ => ?_
  simp [Bool.and_comm]

private theorem remaining_concat (extra : ExtraProperty) (extras : List ExtraProperty)
    (entries : Entries Json) :
    remaining (extras ++ [extra]) entries = (remaining extras entries).erase extra.name := by
  rw [remaining, remaining, Entries.erase, List.filter_filter]
  refine List.filter_congr fun entry _ => ?_
  simp [Bool.and_comm]

private theorem get?_erase_of_fresh {name : String} {extras : List ExtraProperty}
    {entries : Entries Json}
    (fresh : name ∉ extras.map ExtraProperty.name) {other : ExtraProperty}
    (member : other ∈ extras) : (entries.erase name).get? other.name = entries.get? other.name := by
  rw [Entries.get?_erase, if_neg]
  rintro rfl
  exact fresh (List.mem_map.mpr ⟨other, member, rfl⟩)

private theorem get?_remaining {name : String} {extras : List ExtraProperty}
    (fresh : name ∉ extras.map ExtraProperty.name) (entries : Entries Json) :
    (remaining extras entries).get? name = entries.get? name := by
  induction extras generalizing entries with
  | nil => rw [remaining_nil]
  | cons extra rest ih =>
    rw [List.map_cons, List.mem_cons, not_or] at fresh
    rw [remaining_cons, ih fresh.2, Entries.get?_erase, if_neg (Ne.symm fresh.1)]

/-! ## One property after another -/

theorem take_cons_of_takenFrom {extra : ExtraProperty} {rest : List ExtraProperty}
    {context : Context} {entries : Entries Json} (taken : extra.TakenFrom entries) :
    take (extra :: rest) context entries =
      take rest (extra.supply entries context) (entries.erase extra.name) := by
  rcases taken with ⟨text, found⟩ | ⟨found | found, optional⟩
  · simp only [take, found, ExtraProperty.supply, ExtraProperty.text?, Option.bind_some, Json.text?]
  · simp [take, found, optional, ExtraProperty.supply, ExtraProperty.text?]
  · simp [take, found, optional, ExtraProperty.supply, ExtraProperty.text?, Json.text?]

theorem take_cons_of_offendsIn {extra : ExtraProperty} {rest : List ExtraProperty}
    {context : Context} {entries : Entries Json} (offends : extra.OffendsIn entries) :
    take (extra :: rest) context entries =
      (.error (extra.refusal entries), entries.erase extra.name) := by
  rcases offends with ⟨required, found | found⟩ | ⟨value, found, present, noText⟩
  · simp [take, found, required, ExtraProperty.refusal, ExtraProperty.AbsentFrom]
  · simp [take, found, required, ExtraProperty.refusal, ExtraProperty.AbsentFrom]
  · have absent : ¬ extra.AbsentFrom entries := by simp [ExtraProperty.AbsentFrom, found, present]
    rw [ExtraProperty.refusal, if_neg absent]
    cases value with
    | null => contradiction
    | str text => exact absurd rfl (noText text)
    | _ => simp only [take, found]

/-- Taking that succeeds leaves what belongs to no extra property. -/
theorem left_of_take_ok {extras : List ExtraProperty} {context result : Context}
    {entries left : Entries Json} (ran : take extras context entries = (.ok result, left)) :
    left = remaining extras entries := by
  induction extras generalizing context entries with
  | nil =>
    obtain ⟨-, rfl⟩ := Prod.mk.inj ran
    exact (remaining_nil entries).symm
  | cons extra rest ih =>
    by_cases offends : extra.OffendsIn entries
    · rw [take_cons_of_offendsIn offends] at ran
      cases ran
    · rw [take_cons_of_takenFrom (ExtraProperty.not_offendsIn_iff.mp offends)] at ran
      rw [remaining_cons]
      exact ih ran

/-- The context after each property in turn has put in its text. -/
def gather (extras : List ExtraProperty) (entries : Entries Json) (context : Context) : Context :=
  extras.foldl (fun context extra => extra.supply entries context) context

private theorem gather_erase {name : String} {extras : List ExtraProperty} {entries : Entries Json}
    (fresh : name ∉ extras.map ExtraProperty.name) (context : Context) :
    gather extras (entries.erase name) context = gather extras entries context := by
  apply List.foldl_ext
  intro context extra member
  rw [ExtraProperty.supply, ExtraProperty.supply, ExtraProperty.text?, ExtraProperty.text?,
    get?_erase_of_fresh fresh member]

/-- Properties of different names that are taken put in their texts and leave the other entries. -/
theorem take_append {before rest : List ExtraProperty} {context : Context}
    {entries : Entries Json} (names : (before.map ExtraProperty.name).Nodup)
    (taken : ∀ extra ∈ before, extra.TakenFrom entries) :
    take (before ++ rest) context entries =
      take rest (gather before entries context) (remaining before entries) := by
  induction before generalizing context entries with
  | nil => rw [remaining_nil]; rfl
  | cons extra others ih =>
    obtain ⟨fresh, otherNames⟩ := List.nodup_cons.mp names
    obtain ⟨first, later⟩ := List.forall_mem_cons.mp taken
    have laterTaken : ∀ other ∈ others, other.TakenFrom (entries.erase extra.name) := by
      intro other member
      rw [ExtraProperty.takenFrom_congr (get?_erase_of_fresh fresh member)]
      exact later other member
    rw [List.cons_append, take_cons_of_takenFrom first, ih otherNames laterTaken, remaining_cons,
      gather_erase fresh]
    rfl

theorem take_of_takenFrom {extras : List ExtraProperty} {context : Context}
    {entries : Entries Json} (names : (extras.map ExtraProperty.name).Nodup)
    (taken : ∀ extra ∈ extras, extra.TakenFrom entries) :
    take extras context entries = (.ok (gather extras entries context), remaining extras entries) := by
  have all := @take_append extras [] context entries names taken
  rw [List.append_nil] at all
  rw [all, take]

/-- The first property that offends ends the run, with the entries of those before it and its own
taken out. -/
theorem take_of_offendsIn {before after : List ExtraProperty} {extra : ExtraProperty}
    {context : Context} {entries : Entries Json}
    (names : ((before ++ extra :: after).map ExtraProperty.name).Nodup)
    (taken : ∀ earlier ∈ before, earlier.TakenFrom entries) (offends : extra.OffendsIn entries) :
    take (before ++ extra :: after) context entries =
      (.error (extra.refusal entries), remaining (before ++ [extra]) entries) := by
  rw [List.map_append, List.map_cons] at names
  have fresh : extra.name ∉ before.map ExtraProperty.name := by
    intro member
    exact List.disjoint_of_nodup_append names member List.mem_cons_self
  have kept := get?_remaining fresh entries
  have offendsLeft : extra.OffendsIn (remaining before entries) := by
    rwa [ExtraProperty.offendsIn_congr kept]
  rw [take_append (List.Nodup.of_append_left names) taken, take_cons_of_offendsIn offendsLeft,
    ExtraProperty.refusal_congr kept, remaining_concat]

private theorem exists_first_offendsIn {extras : List ExtraProperty} {entries : Entries Json}
    (offends : ∃ extra ∈ extras, extra.OffendsIn entries) :
    ∃ before extra after, extras = before ++ extra :: after ∧ extra.OffendsIn entries ∧
      ∀ earlier ∈ before, earlier.TakenFrom entries := by
  classical
  have some : (extras.find? fun extra => decide (extra.OffendsIn entries)).isSome := by
    simpa [List.find?_isSome] using offends
  obtain ⟨extra, found⟩ := Option.isSome_iff_exists.mp some
  obtain ⟨here, before, after, split, earlier⟩ := List.find?_eq_some_iff_append.mp found
  refine ⟨before, extra, after, split, of_decide_eq_true here, fun other member => ?_⟩
  have passed := earlier other member
  rw [Bool.not_eq_true', decide_eq_false_iff_not] at passed
  exact ExtraProperty.not_offendsIn_iff.mp passed

/-- Taking that succeeds has refused no extra property. -/
theorem takenFrom_of_take_ok {extras : List ExtraProperty} {context result : Context}
    {entries left : Entries Json} (names : (extras.map ExtraProperty.name).Nodup)
    (ran : take extras context entries = (.ok result, left)) :
    ∀ extra ∈ extras, extra.TakenFrom entries := by
  by_contra refused
  have offends : ∃ extra ∈ extras, extra.OffendsIn entries := by
    simpa [← ExtraProperty.not_offendsIn_iff] using refused
  obtain ⟨before, extra, after, rfl, here, taken⟩ := exists_first_offendsIn offends
  rw [take_of_offendsIn names taken here] at ran
  cases ran

/-! ## The texts under a context key -/

/-- The texts that extra properties of this context key supply, in the order of the properties. -/
def textsUnder (extras : List ExtraProperty) (entries : Entries Json) (key : String) :
    List String :=
  (extras.filter fun extra => extra.contextKey = key).filterMap fun extra => extra.text? entries

private theorem textsUnder_cons (extra : ExtraProperty) (rest : List ExtraProperty)
    (entries : Entries Json) (key : String) :
    textsUnder (extra :: rest) entries key =
      (if extra.contextKey = key then (extra.text? entries).toList else []) ++
        textsUnder rest entries key := by
  by_cases keyed : extra.contextKey = key
  · rw [if_pos keyed, textsUnder, List.filter_cons_of_pos (by simpa using keyed),
      List.filterMap_cons]
    cases extra.text? entries <;> rfl
  · rw [if_neg keyed, textsUnder, List.filter_cons_of_neg (by simpa using keyed)]
    rfl

private theorem getElem?_supply (extra : ExtraProperty) (entries : Entries Json) (context : Context)
    (key : String) :
    (extra.supply entries context)[key]? =
      (if extra.contextKey = key then (extra.text? entries).toList else []).getLast?.or
        context[key]? := by
  rw [ExtraProperty.supply]
  cases extra.text? entries with
  | none => simp
  | some text => by_cases keyed : extra.contextKey = key <;> simp [Std.ExtTreeMap.getElem?_insert, keyed]

/-- Of the texts put under one key the last one stays. -/
theorem getElem?_gather (extras : List ExtraProperty) (entries : Entries Json) (context : Context)
    (key : String) :
    (gather extras entries context)[key]? =
      (textsUnder extras entries key).getLast?.or context[key]? := by
  induction extras generalizing context with
  | nil => rfl
  | cons extra rest ih =>
    have step : gather (extra :: rest) entries context =
        gather rest entries (extra.supply entries context) := rfl
    rw [step, ih, getElem?_supply, textsUnder_cons, List.getLast?_append, Option.or_assoc]

/-- The text of an extra property of the list stands under the context key. -/
def Supplies (extras : List ExtraProperty) (entries : Entries Json) (key text : String) : Prop :=
  ∃ extra ∈ extras, extra.contextKey = key ∧ entries.get? extra.name = some (.str text)

private theorem mem_textsUnder_iff {extras : List ExtraProperty} {entries : Entries Json}
    {key text : String} : text ∈ textsUnder extras entries key ↔ Supplies extras entries key text := by
  simp [textsUnder, Supplies, List.mem_filterMap, List.mem_filter, ExtraProperty.text?_eq_some_iff,
    and_assoc]

/-- Where no two properties have one context key, a key has at most one text. -/
theorem getLast?_textsUnder_iff {extras : List ExtraProperty} {entries : Entries Json}
    {key text : String} (keys : (extras.map ExtraProperty.contextKey).Nodup) :
    (textsUnder extras entries key).getLast? = some text ↔ Supplies extras entries key text := by
  rw [← mem_textsUnder_iff]
  constructor
  · exact List.mem_of_getLast?
  · intro listed
    have found := List.getLast?_eq_some_getLast (List.ne_nil_of_mem listed)
    obtain ⟨extra, member, keyed, held⟩ := mem_textsUnder_iff.mp listed
    obtain ⟨other, otherMember, otherKeyed, otherHeld⟩ :=
      mem_textsUnder_iff.mp (List.mem_of_getLast? found)
    obtain rfl := List.inj_on_of_nodup_map keys otherMember member (otherKeyed.trans keyed.symm)
    rw [otherHeld] at held
    exact found.trans (congrArg some (Json.str.inj (Option.some.inj held)))

/-- Taking adds the supplied texts to a context without their keys, and leaves what belongs to no
extra property. -/
theorem take_eq_ok {extras : List ExtraProperty} {context : Context} {entries : Entries Json}
    (names : (extras.map ExtraProperty.name).Nodup)
    (keys : (extras.map ExtraProperty.contextKey).Nodup)
    (free : ∀ extra ∈ extras, context[extra.contextKey]? = none)
    (taken : ∀ extra ∈ extras, extra.TakenFrom entries) :
    ∃ result : Context, take extras context entries = (.ok result, remaining extras entries) ∧
      ∀ key text, result[key]? = some text ↔
        Supplies extras entries key text ∨ context[key]? = some text := by
  refine ⟨gather extras entries context, take_of_takenFrom names taken, fun key text => ?_⟩
  rw [getElem?_gather, ← getLast?_textsUnder_iff keys]
  cases found : (textsUnder extras entries key).getLast? with
  | none => simp
  | some last =>
    obtain ⟨extra, member, rfl, -⟩ := mem_textsUnder_iff.mp (List.mem_of_getLast? found)
    simp [free extra member]

/-- What extraction puts into the context are the supplied texts and nothing else. -/
theorem getElem?_of_extract_ok {extras : List ExtraProperty} {context : Context}
    {entries : Entries Json} {left : Json} (names : (extras.map ExtraProperty.name).Nodup)
    (keys : (extras.map ExtraProperty.contextKey).Nodup)
    (extracted : extract extras (.obj entries) = (.ok context, left)) (key text : String) :
    context[key]? = some text ↔ Supplies extras entries key text := by
  rcases ran : take extras ∅ entries with ⟨outcome, rest⟩
  simp only [extract, ran, Prod.mk.injEq] at extracted
  obtain ⟨rfl, -⟩ := extracted
  have free : ∀ extra ∈ extras, (∅ : Context)[extra.contextKey]? = none := by simp
  obtain ⟨result, again, spec⟩ := take_eq_ok names keys free (takenFrom_of_take_ok names ran)
  rw [ran] at again
  obtain rfl := Except.ok.inj (Prod.mk.inj again).1
  rw [spec]
  simp

end Context

end ToolContract
