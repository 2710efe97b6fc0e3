import Mathlib.Data.List.Forall2
import ToolContract.Proofs.Text.ByteOrder
import ToolContract.Proofs.Tool.Name
import ToolContract.Tool.Catalog

/-!
# Listing tools

All tools are the tools of the methods without streams, service by service in the order of the bytes
of their names and method by method as they are declared. The listing fails with the first of these
methods that has no tool, and else if two tools share a name; where it succeeds, so does the listing
of each service, and yields its part of the whole (`Catalog.allTools_listing`).
-/

set_option autoImplicit false

namespace ToolContract

/-! ## Collecting results -/

section Collect

variable {ε α β : Type} {function : α → Except ε β} {items : List α}

private theorem mapM_cons_of_ok {item : α} {result : β} (ran : function item = .ok result) :
    (item :: items).mapM function = (items.mapM function).map (result :: ·) := by
  rw [List.mapM_cons, ran]
  cases items.mapM function <;> rfl

private theorem mapM_cons_of_error {item : α} {cause : ε} (ran : function item = .error cause) :
    (item :: items).mapM function = .error cause := by
  rw [List.mapM_cons, ran]
  rfl

/-- Collecting succeeds with one result for each item. -/
theorem mapM_eq_ok_iff {results : List β} :
    items.mapM function = .ok results ↔
      List.Forall₂ (fun item result => function item = .ok result) items results := by
  induction items generalizing results with
  | nil =>
    rw [List.forall₂_nil_left_iff, List.mapM_nil]
    simp [pure, Except.pure, eq_comm]
  | cons item rest ih =>
    rw [List.forall₂_cons_left_iff]
    cases ran : function item with
    | error cause => simp [mapM_cons_of_error ran]
    | ok result =>
      rw [mapM_cons_of_ok ran]
      cases later : rest.mapM function with
      | error cause => simp [Except.map, ← ih, later]
      | ok others => simp [Except.map, ← ih, later, eq_comm]

/-- Collecting fails as the first item fails that does. -/
theorem mapM_eq_error {before after : List α} {item : α} {cause : ε}
    (earlier : ∀ other ∈ before, ∃ result, function other = .ok result)
    (failed : function item = .error cause) :
    (before ++ item :: after).mapM function = .error cause := by
  induction before with
  | nil => exact mapM_cons_of_error failed
  | cons first rest ih =>
    obtain ⟨⟨result, ran⟩, later⟩ := List.forall_mem_cons.mp earlier
    rw [List.cons_append, mapM_cons_of_ok ran, ih later]
    rfl

end Collect

/-! ## The registered services -/

/-- The methods of the service that are tools, as declared. -/
def Service.unary (service : Service) : List Method :=
  service.methods.filter fun method => !method.isStreaming

/-- The methods that are tools, each with its service, in the order of the services. -/
def Registry.unaryMethods (registry : Registry) : List (Service × Method) :=
  registry.serviceList.flatMap fun service => service.unary.map fun method => (service, method)

namespace Registry

variable {registry : Registry} {service : Service}

private theorem service?_fullName {name : String}
    (registered : registry.services[name]? = some service) :
    service.fullName = name ∧ registry.service? service.fullName = some service := by
  obtain ⟨rfl, stripped⟩ := registry.services_keyed _ _ registered
  exact ⟨rfl, by rwa [Registry.service?, stripped]⟩

private theorem mem_serviceList_iff :
    service ∈ registry.serviceList ↔ registry.service? service.fullName = some service := by
  constructor
  · intro listed
    obtain ⟨⟨name, held⟩, member, rfl⟩ := List.mem_map.mp listed
    exact (service?_fullName (Std.ExtTreeMap.mem_toList_iff_getElem?_eq_some.mp member)).2
  · intro found
    exact List.mem_map.mpr ⟨(QualifiedName.strip service.fullName, service),
      Std.ExtTreeMap.mem_toList_iff_getElem?_eq_some.mpr found, rfl⟩

/-- The services stand in the order of the bytes of their names. -/
theorem serviceList_ordered (registry : Registry) :
    registry.serviceList.Pairwise fun left right =>
      textBytes left.fullName < textBytes right.fullName := by
  rw [serviceList, List.pairwise_map]
  have ordered : registry.services.toList.Pairwise fun left right =>
      compare left.1 right.1 = .lt := Std.ExtTreeMap.ordered_keys_toList
  refine ordered.imp_of_mem fun {left right} leftListed rightListed less => ?_
  have named {entry : String × Service} (listed : entry ∈ registry.services.toList) :
      entry.2.fullName = entry.1 :=
    (service?_fullName (Std.ExtTreeMap.mem_toList_iff_getElem?_eq_some.mp listed)).1
  rw [named leftListed, named rightListed]
  exact textBytes_lt (compare_lt_iff_lt.mp less)

end Registry

/-! ## Lists of tools -/

namespace Catalog

variable {catalog : Catalog}

/-- The tool of a method of a service. -/
def toolOf (catalog : Catalog) (pair : Service × Method) : Except SchemaError Tool :=
  catalog.methodTool pair.1 pair.2

private theorem toolsOf_eq (catalog : Catalog) (service : Service) (methods : List Method) :
    catalog.toolsOf service methods =
      ((methods.filter fun method => !method.isStreaming).map
        fun method => (service, method)).mapM catalog.toolOf := by
  induction methods with
  | nil => rfl
  | cons method rest ih =>
    cases streaming : method.isStreaming with
    | true => simp [toolsOf, streaming, ih]
    | false => simp [toolsOf, streaming, ih, toolOf]

private theorem toolsOfAll_eq (catalog : Catalog) (services : List Service) :
    catalog.toolsOfAll services =
      (services.flatMap fun service => service.unary.map fun method => (service, method)).mapM
        catalog.toolOf := by
  induction services with
  | nil => rfl
  | cons service rest ih =>
    rw [toolsOfAll, toolsOf_eq, ih, List.flatMap_cons, List.mapM_append]
    rfl

private theorem unrepeated_of_nodup {tools : List Tool} (distinct : (tools.map Tool.name).Nodup) :
    unrepeated tools = .ok tools := by
  rw [unrepeated, (firstRepeated?_eq_none_iff _).mpr distinct]

private theorem unrepeated_of_repeated {tools : List Tool}
    (repeated : ¬ (tools.map Tool.name).Nodup) :
    ∃ name, unrepeated tools = .error (.repeatedTool name) := by
  cases found : firstRepeated? (tools.map Tool.name) with
  | none => exact absurd ((firstRepeated?_eq_none_iff _).mp found) repeated
  | some name => exact ⟨name, by rw [unrepeated, found]⟩

private theorem unrepeated_eq_ok_iff {tools result : List Tool} :
    unrepeated tools = .ok result ↔ tools = result ∧ (tools.map Tool.name).Nodup := by
  by_cases distinct : (tools.map Tool.name).Nodup
  · rw [unrepeated_of_nodup distinct, Except.ok.injEq]
    exact ⟨fun same => ⟨same, distinct⟩, And.left⟩
  · obtain ⟨name, failed⟩ := unrepeated_of_repeated distinct
    simp [failed, distinct]

private theorem name_le_of_methodTool {service : Service} {method : Method} {tool : Tool}
    (ran : catalog.methodTool service method = .ok tool) :
    tool.name.utf8ByteSize ≤ catalog.nameLimit := by
  unfold methodTool at ran
  split at ran
  · cases ran
  · cases compiled : catalog.input method.input with
    | error cause => simp [compiled, bind, Except.bind] at ran
    | ok input =>
      simp only [compiled, bind, Except.bind, pure, Except.pure, Except.ok.injEq] at ran
      subst ran
      dsimp only
      exact ToolName.utf8ByteSize_fit_le _ _

/-- One tool for each of the methods, in order. -/
def Lists (catalog : Catalog) (pairs : List (Service × Method)) (tools : List Tool) : Prop :=
  List.Forall₂ (fun pair tool => catalog.methodTool pair.1 pair.2 = .ok tool) pairs tools

private theorem lists_iff {pairs : List (Service × Method)} {tools : List Tool} :
    catalog.Lists pairs tools ↔ pairs.mapM catalog.toolOf = .ok tools :=
  mapM_eq_ok_iff.symm

private theorem allTools_eq (catalog : Catalog) :
    catalog.allTools = catalog.compiler.registry.unaryMethods.mapM catalog.toolOf >>= unrepeated := by
  rw [allTools, toolsOfAll_eq, Registry.unaryMethods]

private theorem allTools_of_lists {tools : List Tool}
    (listed : catalog.Lists catalog.compiler.registry.unaryMethods tools) :
    catalog.allTools = unrepeated tools := by
  rw [allTools_eq, lists_iff.mp listed]
  rfl

private theorem allTools_eq_ok_iff {tools : List Tool} :
    catalog.allTools = .ok tools ↔
      catalog.Lists catalog.compiler.registry.unaryMethods tools ∧
        (tools.map Tool.name).Nodup := by
  constructor
  · intro listed
    rw [allTools_eq] at listed
    cases collected : catalog.compiler.registry.unaryMethods.mapM catalog.toolOf with
    | error cause => simp [collected, bind, Except.bind] at listed
    | ok all =>
      rw [collected] at listed
      obtain ⟨rfl, distinct⟩ := unrepeated_eq_ok_iff.mp listed
      exact ⟨lists_iff.mpr collected, distinct⟩
  · intro given
    obtain ⟨listed, distinct⟩ := given
    rw [allTools_of_lists listed, unrepeated_of_nodup distinct]

private theorem Lists.name_le {pairs : List (Service × Method)} {tools : List Tool}
    (listed : catalog.Lists pairs tools) :
    ∀ tool ∈ tools, tool.name.utf8ByteSize ≤ catalog.nameLimit := by
  induction listed with
  | nil => exact fun _ member => absurd member List.not_mem_nil
  | cons ran _ ih => exact List.forall_mem_cons.mpr ⟨name_le_of_methodTool ran, ih⟩

/-- The tools of several services are those of each of them, one after the other. -/
theorem exists_segments {services : List Service} {tools : List Tool}
    (listed : catalog.toolsOfAll services = .ok tools) :
    ∃ segments : List (List Tool), tools = segments.flatten ∧
      List.Forall₂ (fun service segment => catalog.toolsOf service service.methods = .ok segment)
        services segments := by
  induction services generalizing tools with
  | nil =>
    obtain rfl := Except.ok.inj listed
    exact ⟨[], rfl, .nil⟩
  | cons service rest ih =>
    rw [toolsOfAll] at listed
    cases first : catalog.toolsOf service service.methods with
    | error cause => simp [first, bind, Except.bind] at listed
    | ok segment =>
      cases later : catalog.toolsOfAll rest with
      | error cause => simp [first, later, bind, Except.bind] at listed
      | ok others =>
        simp only [first, later, bind, Except.bind, pure, Except.pure, Except.ok.injEq] at listed
        obtain ⟨segments, rfl, each⟩ := ih later
        exact ⟨segment :: segments, listed.symm, .cons first each⟩

/-- A segment of a list without repeated names is what its service lists. -/
theorem serviceTools_of_segment {name : String} {service : Service} {segment : List Tool}
    {segments : List (List Tool)}
    (registered : catalog.compiler.registry.service? name = some service)
    (listed : catalog.toolsOf service service.methods = .ok segment) (member : segment ∈ segments)
    (distinct : (segments.flatten.map Tool.name).Nodup) :
    catalog.serviceTools name = .ok segment := by
  have part : (segment.map Tool.name).Sublist (segments.flatten.map Tool.name) :=
    (List.sublist_flatten_of_mem member).map Tool.name
  rw [serviceTools, registered]
  dsimp only
  rw [listed]
  exact unrepeated_of_nodup (distinct.sublist part)

/-- All tools are listed exactly if each method without streams has a tool and no two tools share a
name. The list then goes through the services in the order of the bytes of their names and through
their methods as declared, no name is longer than the limit, and each service lists its own segment.
The listing fails with the first method that has no tool, else with a conflict. -/
theorem allTools_listing (catalog : Catalog) :
    (catalog.compiler.registry.serviceList.Pairwise fun left right =>
      textBytes left.fullName < textBytes right.fullName) ∧
    (∀ service, service ∈ catalog.compiler.registry.serviceList ↔
      catalog.compiler.registry.service? service.fullName = some service) ∧
    (∀ tools, catalog.allTools = .ok tools ↔
      catalog.Lists catalog.compiler.registry.unaryMethods tools ∧
        (tools.map Tool.name).Nodup) ∧
    (∀ tools, catalog.allTools = .ok tools →
      (∀ tool ∈ tools, tool.name.utf8ByteSize ≤ catalog.nameLimit) ∧
      ∃ segments : List (List Tool), tools = segments.flatten ∧
        List.Forall₂ (fun service segment =>
          catalog.Lists (service.unary.map fun method => (service, method)) segment ∧
          ∀ name, catalog.compiler.registry.service? name = some service →
            catalog.serviceTools name = .ok segment)
          catalog.compiler.registry.serviceList segments) ∧
    (∀ before service method after cause,
      catalog.compiler.registry.unaryMethods = before ++ (service, method) :: after →
      (∀ earlier ∈ before, ∃ tool, catalog.methodTool earlier.1 earlier.2 = .ok tool) →
      catalog.methodTool service method = .error cause → catalog.allTools = .error cause) ∧
    ∀ tools, catalog.Lists catalog.compiler.registry.unaryMethods tools →
      ¬ (tools.map Tool.name).Nodup →
      ∃ cause, catalog.allTools = .error cause ∧ cause.category = .conflict := by
  refine ⟨Registry.serviceList_ordered _, fun _ => Registry.mem_serviceList_iff,
    fun _ => allTools_eq_ok_iff, fun tools listed => ?_, ?_, ?_⟩
  · obtain ⟨all, distinct⟩ := allTools_eq_ok_iff.mp listed
    have collected := lists_iff.mp all
    rw [Registry.unaryMethods, ← toolsOfAll_eq] at collected
    obtain ⟨segments, rfl, each⟩ := exists_segments collected
    refine ⟨all.name_le, segments, rfl, ?_⟩
    -- by position, since a segment's names are distinct because it is one of the segments
    refine List.forall₂_iff_get.mpr ⟨each.length_eq, fun index _ inside => ?_⟩
    have ran := (List.forall₂_iff_get.mp each).2 index (by assumption) inside
    refine ⟨lists_iff.mpr ((toolsOf_eq _ _ _).symm.trans ran), fun name registered => ?_⟩
    exact serviceTools_of_segment registered ran (List.get_mem _ _) distinct
  · intro before service method after cause split earlier failed
    have collecting : catalog.compiler.registry.unaryMethods.mapM catalog.toolOf = .error cause := by
      rw [split]
      exact mapM_eq_error earlier failed
    rw [allTools_eq, collecting]
    rfl
  · intro tools listed repeated
    obtain ⟨name, failed⟩ := unrepeated_of_repeated repeated
    exact ⟨.repeatedTool name, (allTools_of_lists listed).trans failed, rfl⟩

end Catalog

/-! ### Two services -/

namespace Desk

def ask : Message where
  fullName := "a.Ask"
  fields := [{ name := "text", kind := .scalar .string }]

def notes : Service where
  fullName := "b.Notes"
  methods := [
    { name := "Get", input := "a.Ask" },
    { name := "Watch", input := "a.Ask", serverStreaming := true }]

def lamps : Service where
  fullName := "a.Lamps"
  methods := [{ name := "Switch", input := ".a.Ask", comment := some "Turns a lamp on." }]

/-- The service that comes first by its name is registered last. -/
def catalog : Catalog where
  compiler := {
    registry := Registry.empty |>.addMessage ask |>.addService notes |>.addService lamps }

/-- The same services where all names come to nothing. -/
def nameless : Catalog :=
  { catalog with nameLimit := 0 }

private theorem serviceList_eq : catalog.compiler.registry.serviceList = [lamps, notes] := by
  decide +kernel

private theorem allTools_ok :
    ∃ tools, catalog.allTools = .ok tools ∧
      tools.map Tool.name = ["a_Lamps_Switch", "b_Notes_Get"] := by
  have names : catalog.allTools.toOption.map (·.map Tool.name) =
      some ["a_Lamps_Switch", "b_Notes_Get"] := by decide +kernel
  cases listed : catalog.allTools with
  | error cause => simp [listed, Except.toOption] at names
  | ok tools => exact ⟨tools, rfl, by simpa [listed, Except.toOption] using names⟩

private theorem lists_nameless :
    ∃ tools, nameless.Lists nameless.compiler.registry.unaryMethods tools ∧
      tools.map Tool.name = ["", ""] := by
  have names : (nameless.compiler.registry.unaryMethods.mapM nameless.toolOf).toOption.map
      (·.map Tool.name) = some ["", ""] := by decide +kernel
  cases collected : nameless.compiler.registry.unaryMethods.mapM nameless.toolOf with
  | error cause => simp [collected, Except.toOption] at names
  | ok tools =>
    exact ⟨tools, Catalog.lists_iff.mpr collected, by simpa [collected, Except.toOption] using names⟩

end Desk

open Desk in
theorem Catalog.allTools_listing_desk :
    (∃ first second, catalog.allTools = .ok [first, second] ∧
      first.name = "a_Lamps_Switch" ∧ second.name = "b_Notes_Get" ∧
      catalog.serviceTools ".b.Notes" = .ok [second]) ∧
    ∃ cause, nameless.allTools = .error cause ∧ cause.category = .conflict := by
  obtain ⟨-, -, -, segmented, -, -⟩ := Catalog.allTools_listing catalog
  obtain ⟨-, -, -, -, -, conflicting⟩ := Catalog.allTools_listing nameless
  refine ⟨?_, ?_⟩
  · obtain ⟨tools, listed, names⟩ := allTools_ok
    obtain ⟨-, segments, rfl, each⟩ := segmented tools listed
    rw [serviceList_eq] at each
    cases each with
    | cons first each =>
      cases each with
      | cons second each =>
        cases each
        cases first.1 with
        | cons switch later =>
          cases later
          cases second.1 with
          | cons get later =>
            cases later
            simp only [List.flatten_cons, List.flatten_nil, List.append_nil, List.cons_append,
              List.nil_append, List.map_cons, List.map_nil, List.cons.injEq, and_true] at names
            exact ⟨_, _, listed, names.1, names.2, second.2 ".b.Notes" (by decide +kernel)⟩
  · obtain ⟨tools, listed, names⟩ := lists_nameless
    exact conflicting tools listed (by rw [names]; decide)

end ToolContract
