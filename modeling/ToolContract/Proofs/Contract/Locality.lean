import ToolContract.Proofs.Compile.Runs

/-!
# What a contract depends on

The compiler reads the registry through lookups alone: of the messages it asks for, and of the enums
of the fields of those. What it asks for is reached from the message whose contract it compiles. So
two registries that answer alike for everything that is reached, unknown names included, give the
same contract or the same failure, and to register anything else changes neither
(`Compiler.contract_local`).
-/

set_option autoImplicit false

namespace ToolContract

/-! ## What is reached from a message -/

/-- The name of the enum that values of the kind are of. -/
def FieldKind.enumeration? : FieldKind → Option String
  | .enumeration name => some (QualifiedName.strip name)
  | _ => none

private theorem FieldKind.strip_enumeration {kind : FieldKind} {name : String}
    (found : kind.enumeration? = some name) : QualifiedName.strip name = name := by
  cases kind with
  | enumeration given =>
    obtain rfl := Option.some.inj found
    exact QualifiedName.strip_strip given
  | _ => cases found

private theorem FieldKind.strip_target {kind : FieldKind} {name : String}
    (found : kind.target? = some name) : QualifiedName.strip name = name := by
  cases kind with
  | message given =>
    cases known : WellKnown.ofName? given with
    | some type => simp [FieldKind.target?, known] at found
    | none =>
      simp only [FieldKind.target?, known, Option.some.injEq] at found
      rw [← found, QualifiedName.strip_strip]
  | _ => cases found

namespace Registry

/-- A message that is reached from `start` has a field of the enum `name`. -/
def ReachesEnumeration (registry : Registry) (start name : String) : Prop :=
  ∃ message, registry.Holds message ∧ registry.Reaches start message.fullName ∧
    ∃ field ∈ message.fields, field.kind.enumeration? = some name

/-- Both registries give the same answer for each message type that is reached from `start` in the
first of them, `start` itself included, and for each enum of their fields. -/
structure AgreesFrom (registry other : Registry) (start : String) : Prop where
  messages : ∀ name, registry.Reaches start name → registry.message? name = other.message? name
  enumerations : ∀ name, registry.ReachesEnumeration start name →
    registry.enumeration? name = other.enumeration? name

/-- To register the descriptor gives a meaning to a name that is reached from `start`. No contract
is about a service. -/
def Concerns (registry : Registry) (start : String) : Descriptor → Prop
  | .message message => registry.Reaches start (QualifiedName.strip message.fullName)
  | .enumeration enumeration =>
    registry.ReachesEnumeration start (QualifiedName.strip enumeration.fullName)
  | .service _ => False

variable {registry other : Registry} {start name next : String}

private theorem holds_iff {message : Message} : registry.Holds message ↔
    QualifiedName.strip message.fullName = message.fullName ∧
      registry.message? message.fullName = some message := by
  constructor
  · intro held
    refine ⟨held.strip, ?_⟩
    rwa [message?, held.strip]
  · rintro ⟨plain, found⟩
    rwa [message?, plain] at found

private theorem refers_iff : registry.Refers name next ↔
    QualifiedName.strip name = name ∧
      ∃ message, registry.message? name = some message ∧ next ∈ message.targets := by
  constructor
  · rintro ⟨message, registered, target⟩
    obtain ⟨-, plain⟩ := registry.messages_keyed _ _ registered
    refine ⟨plain, message, ?_, target⟩
    rwa [message?, plain]
  · rintro ⟨plain, message, found, target⟩
    rw [message?, plain] at found
    exact ⟨message, found, target⟩

private theorem strip_of_refers (refers : registry.Refers name next) :
    QualifiedName.strip next = next := by
  obtain ⟨message, -, target⟩ := refers
  obtain ⟨field, -, found⟩ := Message.mem_targets_iff.mp target
  exact FieldKind.strip_target found

theorem strip_of_reaches (reached : registry.Reaches start name)
    (plain : QualifiedName.strip start = start) : QualifiedName.strip name = name := by
  cases reached with
  | refl => exact plain
  | tail _ refers => exact strip_of_refers refers

/-! ## Registries that agree -/

namespace AgreesFrom

private theorem refers_iff (agree : registry.AgreesFrom other start)
    (reached : registry.Reaches start name) :
    registry.Refers name next ↔ other.Refers name next := by
  rw [Registry.refers_iff, Registry.refers_iff, agree.messages name reached]

private theorem reaches_iff (agree : registry.AgreesFrom other start) :
    registry.Reaches start name ↔ other.Reaches start name := by
  constructor
  · intro path
    induction path with
    | refl => exact .refl
    | tail before refers ih => exact .tail ih ((agree.refers_iff before).mp refers)
  · intro path
    -- a walk in the other registry never leaves what is reached in this one
    induction path with
    | refl => exact .refl
    | tail _ refers ih => exact .tail ih ((agree.refers_iff ih).mpr refers)

private theorem message?_eq (agree : registry.AgreesFrom other start)
    (reached : registry.Reaches start (QualifiedName.strip name)) :
    registry.message? name = other.message? name := by
  have stripped := agree.messages _ reached
  rwa [message?_strip, message?_strip] at stripped

private theorem holds_iff (agree : registry.AgreesFrom other start) {message : Message}
    (reached : registry.Reaches start message.fullName) :
    registry.Holds message ↔ other.Holds message := by
  rw [Registry.holds_iff, Registry.holds_iff, agree.messages _ reached]

private theorem reachesEnumeration_iff (agree : registry.AgreesFrom other start) :
    registry.ReachesEnumeration start name ↔ other.ReachesEnumeration start name := by
  refine exists_congr fun message => ?_
  constructor
  · rintro ⟨held, reached, declared⟩
    exact ⟨(agree.holds_iff reached).mp held, agree.reaches_iff.mp reached, declared⟩
  · rintro ⟨held, reached, declared⟩
    have back := agree.reaches_iff.mpr reached
    exact ⟨(agree.holds_iff back).mpr held, back, declared⟩

private theorem concerns_iff (agree : registry.AgreesFrom other start) (descriptor : Descriptor) :
    registry.Concerns start descriptor ↔ other.Concerns start descriptor := by
  cases descriptor with
  | message message => exact agree.reaches_iff
  | enumeration enumeration => exact agree.reachesEnumeration_iff
  | service service => exact Iff.rfl

private theorem refl (registry : Registry) (start : String) : registry.AgreesFrom registry start :=
  ⟨fun _ _ => rfl, fun _ _ => rfl⟩

private theorem trans {third : Registry} (first : registry.AgreesFrom other start)
    (second : other.AgreesFrom third start) : registry.AgreesFrom third start where
  messages name reached :=
    (first.messages name reached).trans (second.messages name (first.reaches_iff.mp reached))
  enumerations name reached :=
    (first.enumerations name reached).trans
      (second.enumerations name (first.reachesEnumeration_iff.mp reached))

/-- A registry still agrees once it holds a descriptor that does not concern `start`. -/
theorem add {descriptor : Descriptor} (plain : QualifiedName.strip start = start)
    (apart : ¬ registry.Concerns start descriptor) :
    registry.AgreesFrom (registry.add descriptor) start := by
  cases descriptor with
  | message message =>
    refine ⟨fun name reached => ?_, fun _ _ => rfl⟩
    have different : QualifiedName.strip message.fullName ≠ QualifiedName.strip name := by
      intro same
      rw [strip_of_reaches reached plain] at same
      rw [← same] at reached
      exact apart reached
    rw [Registry.add, message?_addMessage, if_neg different]
  | enumeration enumeration =>
    refine ⟨fun _ _ => rfl, fun name reached => ?_⟩
    have stripped : QualifiedName.strip name = name := by
      obtain ⟨message, -, -, field, -, found⟩ := reached
      exact FieldKind.strip_enumeration found
    have different : QualifiedName.strip enumeration.fullName ≠ QualifiedName.strip name := by
      intro same
      rw [stripped] at same
      rw [← same] at reached
      exact apart reached
    rw [Registry.add, enumeration?_addEnumeration, if_neg different]
  | service service => exact ⟨fun _ _ => rfl, fun _ _ => rfl⟩

private theorem foldl_add {descriptors : List Descriptor}
    (plain : QualifiedName.strip start = start)
    (apart : ∀ descriptor ∈ descriptors, ¬ registry.Concerns start descriptor) :
    registry.AgreesFrom (descriptors.foldl Registry.add registry) start := by
  induction descriptors generalizing registry with
  | nil => exact refl registry start
  | cons descriptor rest ih =>
    have first : registry.AgreesFrom (registry.add descriptor) start :=
      add plain (apart descriptor List.mem_cons_self)
    refine first.trans (ih fun later listed => ?_)
    rw [← first.concerns_iff]
    exact apart later (List.mem_cons_of_mem _ listed)

end AgreesFrom

end Registry

/-! ## Compilers that read alike -/

/-- What asks for message types only does the same with two resolvers that are equal on these. -/
theorem Asks.congr {registry : Registry} {asked : String → Prop} {flaw : Prop} {α : Type}
    {part : Resolver → Step α} {resolve another : Resolver} (asks : Asks registry asked flaw part)
    (same : ∀ name, asked (QualifiedName.strip name) → resolve name = another name) :
    part resolve = part another := by
  induction asks with
  | settled value => rfl
  | flawed cause => rfl
  | look => rfl
  | ask known => exact same _ known
  | bind _ _ firstIH laterIH => exact congrArg₂ Bind.bind firstIH (funext laterIH)

namespace Compiler

variable {compiler other : Compiler} {resolve : Resolver} {start : String}

/-- Both compilers find the same enums for the fields. -/
def SameEnumerations (compiler other : Compiler) (fields : List Field) : Prop :=
  ∀ field ∈ fields, ∀ name, field.kind.enumeration? = some name →
    compiler.registry.enumeration? name = other.registry.enumeration? name

private theorem kindSchema_congr {kind : FieldKind}
    (same : ∀ name, kind.enumeration? = some name →
      compiler.registry.enumeration? name = other.registry.enumeration? name) :
    compiler.kindSchema resolve kind = other.kindSchema resolve kind := by
  cases kind with
  | scalar type => rfl
  | enumeration name =>
    have found := same _ rfl
    rw [Registry.enumeration?_strip, Registry.enumeration?_strip] at found
    rw [kindSchema, kindSchema, found]
  | message name => rfl
  | group name => rfl

private theorem fieldSchemaWith_congr {fields : List Field}
    (same : compiler.SameEnumerations other fields)
    {field : Field} (listed : field ∈ fields) :
    compiler.fieldSchemaWith resolve field = other.fieldSchemaWith resolve field := by
  have kind : compiler.kindSchema resolve field.kind = other.kindSchema resolve field.kind :=
    kindSchema_congr (same field listed)
  rw [fieldSchemaWith, fieldSchemaWith, valueSchema, valueSchema, kind]

private theorem variants_congr {fields members : List Field}
    (same : compiler.SameEnumerations other fields) (listed : ∀ member ∈ members, member ∈ fields) :
    compiler.variants resolve members = other.variants resolve members := by
  induction members with
  | nil => rfl
  | cons member rest ih =>
    have first : compiler.variant resolve member = other.variant resolve member := by
      rw [variant, variant, fieldSchemaWith_congr same (listed member List.mem_cons_self)]
    have later : compiler.variants resolve rest = other.variants resolve rest :=
      ih fun another inside => listed another (List.mem_cons_of_mem _ inside)
    rw [variants, variants, first, later]

private theorem slotSchema_congr {fields : List Field}
    (same : compiler.SameEnumerations other fields)
    {slot : Slot} (listed : ∀ field ∈ slot.fields, field ∈ fields) :
    compiler.slotSchema resolve slot = other.slotSchema resolve slot := by
  cases slot with
  | plain field => exact fieldSchemaWith_congr same (listed field (List.mem_singleton.mpr rfl))
  | group name members =>
    have inner : compiler.variants resolve members = other.variants resolve members :=
      variants_congr same listed
    rw [slotSchema, slotSchema, inner]

private theorem properties_congr {fields : List Field}
    (same : compiler.SameEnumerations other fields)
    {owner : String} {done : Entries Schema} {slots : List Slot}
    (listed : ∀ slot ∈ slots, ∀ field ∈ slot.fields, field ∈ fields) :
    compiler.properties resolve owner done slots = other.properties resolve owner done slots := by
  induction slots generalizing done with
  | nil => rfl
  | cons slot rest ih =>
    rw [properties, properties, slotSchema_congr same (listed slot List.mem_cons_self)]
    refine congrArg _ (funext fun schema => ?_)
    rw [ih fun later inside => listed later (List.mem_cons_of_mem _ inside)]

private theorem body_congr {message : Message} (options : compiler.options = other.options)
    (same : compiler.SameEnumerations other message.fields) :
    compiler.body resolve message = other.body resolve message := by
  rw [body, body, options, properties_congr same fun slot listed field inside =>
    (Message.mem_slot_fields listed inside).1]

/-- The body of a reached message is the same if the resolvers are equal on what is reached. -/
theorem body_local (options : compiler.options = other.options)
    (agree : compiler.registry.AgreesFrom other.registry start) {another : Resolver}
    (same : ∀ name, compiler.registry.Reaches start (QualifiedName.strip name) →
      resolve name = another name)
    {message : Message} (held : compiler.registry.Holds message)
    (reached : compiler.registry.Reaches start message.fullName) :
    compiler.body resolve message = other.body another message := by
  have enumerations : compiler.SameEnumerations other message.fields := by
    intro field declared name found
    exact agree.enumerations name ⟨message, held, reached, field, declared, found⟩
  calc compiler.body resolve message = compiler.body another message :=
        (body_asks compiler message).congr fun name target =>
          same name (reached.tail ⟨message, held, target⟩)
    _ = other.body another message := body_congr options enumerations

private theorem messageSchemaWith_local (options : compiler.options = other.options)
    (agree : compiler.registry.AgreesFrom other.registry start) {another : Resolver}
    (same : ∀ name, compiler.registry.Reaches start (QualifiedName.strip name) →
      resolve name = another name)
    {message : Message} (held : compiler.registry.Holds message)
    (reached : compiler.registry.Reaches start message.fullName) :
    compiler.messageSchemaWith resolve message = other.messageSchemaWith another message := by
  funext table
  rw [messageSchemaWith, messageSchemaWith, body_local options agree same held reached]

private theorem resolver_local (options : compiler.options = other.options)
    (agree : compiler.registry.AgreesFrom other.registry start) (depth : Nat) {name : String}
    (reached : compiler.registry.Reaches start (QualifiedName.strip name)) :
    compiler.resolver depth name = other.resolver depth name := by
  induction depth generalizing name with
  | zero => rw [resolver, resolver, ensure, ensure, agree.message?_eq reached]
  | succ depth ih =>
    rw [resolver, resolver, ensure, ensure, ← agree.message?_eq reached]
    cases found : compiler.registry.message? name with
    | none => rfl
    | some message =>
      obtain ⟨named, held⟩ := Registry.message?_eq_some found
      have inside : compiler.messageSchemaWith (compiler.resolver depth) message =
          other.messageSchemaWith (other.resolver depth) message :=
        messageSchemaWith_local options agree (fun _ => ih) held (named ▸ reached)
      simp only [inside]
      rfl

/-- Both resolvers are taken as deep as the larger of the registries, which changes neither. -/
theorem contract_eq (options : compiler.options = other.options) {name : String}
    (agree : compiler.registry.AgreesFrom other.registry (QualifiedName.strip name)) :
    compiler.contract name = other.contract name := by
  rw [contract, contract, ← agree.message?_eq .refl]
  cases found : compiler.registry.message? name with
  | none => rfl
  | some message =>
    obtain ⟨named, held⟩ := Registry.message?_eq_some found
    let depth := max compiler.registry.messages.size other.registry.messages.size
    have same : compiler.messageSchema message [] = other.messageSchema message [] := by
      calc compiler.messageSchema message []
        _ = compiler.messageSchemaWith (compiler.resolver depth) message [] :=
          (messageSchemaWith_resolver compiler message [] (Nat.le_max_left _ _)).symm
        _ = other.messageSchemaWith (other.resolver depth) message [] :=
          congrFun (messageSchemaWith_local options agree
            (fun _ reached => resolver_local options agree depth reached) held (named ▸ .refl)) []
        _ = other.messageSchema message [] :=
          messageSchemaWith_resolver other message [] (Nat.le_max_right _ _)
    simp only [same]

end Compiler

/-! ## Contracts depend on what is reached alone -/

/-- Two registries that agree on the name, on every message type reached from it, registered or not,
and on every enum of the fields of these give the same result for the name, a contract or a failure.
To register further descriptors, new ones or in place of old ones, of which none concerns the name
changes nothing either, and nor does it to leave them out again. -/
theorem Compiler.contract_local (options : Options) (registry : Registry) (name : String) :
    (∀ other, registry.AgreesFrom other (QualifiedName.strip name) →
      (Compiler.mk registry options).contract name = (Compiler.mk other options).contract name) ∧
    ∀ descriptors : List Descriptor,
      (∀ descriptor ∈ descriptors, ¬ registry.Concerns (QualifiedName.strip name) descriptor) →
      (Compiler.mk (descriptors.foldl Registry.add registry) options).contract name =
        (Compiler.mk registry options).contract name := by
  have same : ∀ other, registry.AgreesFrom other (QualifiedName.strip name) →
      (Compiler.mk registry options).contract name = (Compiler.mk other options).contract name := by
    intro other agree
    apply Compiler.contract_eq
    · rfl
    · exact agree
  refine ⟨same, fun descriptors apart => ?_⟩
  have agree : registry.AgreesFrom (descriptors.foldl Registry.add registry)
      (QualifiedName.strip name) := .foldl_add (QualifiedName.strip_strip name) apart
  exact (same _ agree).symm

namespace Invoices

/-- A message that refers to an enum and to a message type that nobody declares. -/
def invoice : Message where
  fullName := "pay.Invoice"
  fields := [
    { name := "currency", kind := .enumeration ".pay.Currency" },
    { name := "payer", kind := .message "pay.Party" }]

def currency : Enumeration where
  fullName := "pay.Currency"
  values := [("EUR", 0)]

def refund : Message where
  fullName := "pay.Refund"
  fields := [{ name := "invoice", kind := .message "pay.Invoice" }]

def books : Registry :=
  Registry.empty |>.addMessage invoice |>.addEnumeration currency

/-- Descriptors that are not reached from the invoice, though one of them leads to it. -/
def strangers : List Descriptor :=
  [.message refund, .enumeration ⟨"pay.Reason", [], none⟩, .service ⟨"pay.Desk", [], none⟩]

/-- A registry of the same invoices that was filled in another order and holds a refund as well. -/
def copies : Registry :=
  Registry.empty |>.addEnumeration currency |>.addMessage refund |>.addMessage invoice

private theorem registered : books.messages["pay.Invoice"]? = some invoice := by decide +kernel

private theorem refers {name next : String} (reference : books.Refers name next) :
    name = "pay.Invoice" ∧ next = "pay.Party" := by
  obtain ⟨message, found, target⟩ := reference
  have entries : books.messages.toList = [("pay.Invoice", invoice)] := by decide +kernel
  have listed := Std.ExtTreeMap.mem_toList_iff_getElem?_eq_some.mpr found
  rw [entries, List.mem_singleton] at listed
  obtain ⟨rfl, rfl⟩ := Prod.mk.inj listed
  have targets : invoice.targets = ["pay.Party"] := by decide +kernel
  rw [targets, List.mem_singleton] at target
  exact ⟨rfl, target⟩

private theorem reaches {name : String} (path : books.Reaches "pay.Invoice" name) :
    name = "pay.Invoice" ∨ name = "pay.Party" := by
  cases path with
  | refl => exact .inl rfl
  | tail _ reference => exact .inr (refers reference).2

private theorem reachesEnumeration {name : String}
    (path : books.ReachesEnumeration "pay.Invoice" name) : name = "pay.Currency" := by
  obtain ⟨message, held, reached, field, declared, found⟩ := path
  rcases reaches reached with named | named
  · rw [Registry.Holds, named, registered] at held
    obtain rfl := Option.some.inj held
    simp only [invoice, List.mem_cons, List.not_mem_nil, or_false] at declared
    rcases declared with rfl | rfl
    · exact (Option.some.inj found).symm
    · cases found
  · have missing : books.messages["pay.Party"]? = none := by decide +kernel
    rw [Registry.Holds, named, missing] at held
    cases held

end Invoices

open Invoices in
/-- An invoice whose payer is unknown fails alike in all three registries, refund or not. -/
theorem Compiler.contract_local_invoices :
    (Compiler.mk books {}).contract "pay.Invoice" = .error (.unknownType "pay.Party") ∧
    (Compiler.mk copies {}).contract "pay.Invoice" = .error (.unknownType "pay.Party") ∧
    (Compiler.mk (strangers.foldl Registry.add books) {}).contract "pay.Invoice" =
      .error (.unknownType "pay.Party") := by
  have outcome : ((Compiler.mk books {}).contract "pay.Invoice").map (fun _ => ()) =
      .error (.unknownType "pay.Party") := by decide +kernel
  have fails : (Compiler.mk books {}).contract "pay.Invoice" =
      .error (.unknownType "pay.Party") := by
    cases compiled : (Compiler.mk books {}).contract "pay.Invoice" with
    | ok contract => simp [compiled, Except.map] at outcome
    | error cause => simpa [compiled, Except.map] using outcome
  have agree : books.AgreesFrom copies (QualifiedName.strip "pay.Invoice") := by
    refine ⟨fun name path => ?_, fun name path => ?_⟩
    · rcases reaches path with rfl | rfl
      · decide +kernel
      · decide +kernel
    · obtain rfl := reachesEnumeration path
      decide +kernel
  have apart : ∀ descriptor ∈ strangers,
      ¬ books.Concerns (QualifiedName.strip "pay.Invoice") descriptor := by
    intro descriptor listed concerned
    simp only [strangers, List.mem_cons, List.not_mem_nil, or_false] at listed
    rcases listed with rfl | rfl | rfl
    · exact absurd (reaches concerned) (by decide +kernel)
    · exact absurd (reachesEnumeration concerned) (by decide +kernel)
    · exact concerned
  obtain ⟨same, more⟩ := Compiler.contract_local {} books "pay.Invoice"
  exact ⟨fails, (same copies agree).symm.trans fails, (more strangers apart).trans fails⟩

end ToolContract
