import Std.Data.ExtTreeMap
import ToolContract.Descriptor.Basic

/-!
# The registry of descriptors

Each sort of descriptor is kept under its qualified name without leading dots; registering a name
again replaces what was there, and a lookup ignores leading dots. Two registries that answer every
lookup alike are equal, so the order of registrations leaves no trace beyond the last one of each
name.
-/

set_option autoImplicit false

namespace ToolContract

inductive Descriptor where
  | message (message : Message)
  | enumeration (enumeration : Enumeration)
  | service (service : Service)
  deriving DecidableEq, Repr

/-- Every item of a table stands under its own name, which has no leading dot. -/
def Keyed {α : Type} (fullName : α → String) (table : Std.ExtTreeMap String α) : Prop :=
  ∀ name item, table[name]? = some item → fullName item = name ∧ QualifiedName.strip name = name

theorem Keyed.empty {α : Type} (fullName : α → String) : Keyed fullName ∅ := by
  intro name item found
  simp at found

private theorem Keyed.insert {α : Type} {fullName : α → String} {table : Std.ExtTreeMap String α}
    (keyed : Keyed fullName table) {name : String} {item : α}
    (named : fullName item = QualifiedName.strip name) :
    Keyed fullName (table.insert (QualifiedName.strip name) item) := by
  intro other found lookup
  rw [Std.ExtTreeMap.getElem?_insert] at lookup
  split at lookup
  · rename_i same
    obtain rfl := Std.compare_eq_iff_eq.mp same
    obtain rfl := Option.some.inj lookup
    exact ⟨named, QualifiedName.strip_strip name⟩
  · exact keyed other found lookup

/-- The registered descriptors of each sort by qualified name, in the order of their names. -/
structure Registry where
  messages : Std.ExtTreeMap String Message := ∅
  enumerations : Std.ExtTreeMap String Enumeration := ∅
  services : Std.ExtTreeMap String Service := ∅
  messages_keyed : Keyed Message.fullName messages := by exact .empty _
  enumerations_keyed : Keyed Enumeration.fullName enumerations := by exact .empty _
  services_keyed : Keyed Service.fullName services := by exact .empty _

namespace Registry

def empty : Registry := {}

def addMessage (registry : Registry) (message : Message) : Registry :=
  let name := QualifiedName.strip message.fullName
  { registry with
    messages := registry.messages.insert name { message with fullName := name }
    messages_keyed := registry.messages_keyed.insert rfl }

def addEnumeration (registry : Registry) (enumeration : Enumeration) : Registry :=
  let name := QualifiedName.strip enumeration.fullName
  { registry with
    enumerations := registry.enumerations.insert name { enumeration with fullName := name }
    enumerations_keyed := registry.enumerations_keyed.insert rfl }

def addService (registry : Registry) (service : Service) : Registry :=
  let name := QualifiedName.strip service.fullName
  { registry with
    services := registry.services.insert name { service with fullName := name }
    services_keyed := registry.services_keyed.insert rfl }

def add (registry : Registry) : Descriptor → Registry
  | .message message => registry.addMessage message
  | .enumeration enumeration => registry.addEnumeration enumeration
  | .service service => registry.addService service

def message? (registry : Registry) (name : String) : Option Message :=
  registry.messages[QualifiedName.strip name]?

def enumeration? (registry : Registry) (name : String) : Option Enumeration :=
  registry.enumerations[QualifiedName.strip name]?

def service? (registry : Registry) (name : String) : Option Service :=
  registry.services[QualifiedName.strip name]?

def messageList (registry : Registry) : List Message :=
  registry.messages.toList.map Prod.snd

def serviceList (registry : Registry) : List Service :=
  registry.services.toList.map Prod.snd

/-- Whether the message is the one registered under its name. -/
def Holds (registry : Registry) (message : Message) : Prop :=
  registry.messages[message.fullName]? = some message

instance (registry : Registry) (message : Message) : Decidable (registry.Holds message) :=
  inferInstanceAs (Decidable (_ = _))

theorem Holds.strip {registry : Registry} {message : Message} (held : registry.Holds message) :
    QualifiedName.strip message.fullName = message.fullName :=
  (registry.messages_keyed _ _ held).2

/-! ## What a lookup finds after a registration -/

theorem message?_addMessage (registry : Registry) (message : Message) (name : String) :
    (registry.addMessage message).message? name =
      if QualifiedName.strip message.fullName = QualifiedName.strip name
      then some { message with fullName := QualifiedName.strip name }
      else registry.message? name := by
  simp only [message?, addMessage, Std.ExtTreeMap.getElem?_insert, Std.compare_eq_iff_eq]
  split
  · rename_i same
    rw [same]
  · rfl

theorem enumeration?_addEnumeration (registry : Registry) (enumeration : Enumeration)
    (name : String) :
    (registry.addEnumeration enumeration).enumeration? name =
      if QualifiedName.strip enumeration.fullName = QualifiedName.strip name
      then some { enumeration with fullName := QualifiedName.strip name }
      else registry.enumeration? name := by
  simp only [enumeration?, addEnumeration, Std.ExtTreeMap.getElem?_insert, Std.compare_eq_iff_eq]
  split
  · rename_i same
    rw [same]
  · rfl

theorem service?_addService (registry : Registry) (service : Service) (name : String) :
    (registry.addService service).service? name =
      if QualifiedName.strip service.fullName = QualifiedName.strip name
      then some { service with fullName := QualifiedName.strip name }
      else registry.service? name := by
  simp only [service?, addService, Std.ExtTreeMap.getElem?_insert, Std.compare_eq_iff_eq]
  split
  · rename_i same
    rw [same]
  · rfl

@[simp] theorem message?_strip (registry : Registry) (name : String) :
    registry.message? (QualifiedName.strip name) = registry.message? name := by
  simp [message?]

@[simp] theorem enumeration?_strip (registry : Registry) (name : String) :
    registry.enumeration? (QualifiedName.strip name) = registry.enumeration? name := by
  simp [enumeration?]

end Registry

end ToolContract
