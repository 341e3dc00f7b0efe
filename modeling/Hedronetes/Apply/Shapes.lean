import Hedronetes.Apply.ServerSide

/-!
# Shapes

What the type of a resource says about its values, and that server-side apply keeps
to it: every declared path leads through containers of the kind the stored object
has there, so no write panics, and the result is of the type again.
-/

namespace Hedronetes.Apply

open FirstMatch Fallible

/-- What a Kubernetes type says about a value. A map gives every name one shape, a
struct gives each of its fields its own. -/
inductive Shape
  | scalar
  | list (item : Shape)
  | object (member : String → Shape)

/-- A value of the type. A scalar, or a list of scalars, may have been left `null`:
the `nodePort` of a port, the generation of a kind without one, the address families
of a Service by name. The ownership records may be anything. -/
inductive Fits : Bool → Shape → Json → Prop
  | scalar {underMetadata : Bool} {value : Json} : value.isObject = false →
      value.asArray = none → Fits underMetadata .scalar value
  | unset {underMetadata : Bool} : Fits underMetadata (.list .scalar) .null
  | list {underMetadata : Bool} {item : Shape} {items : List Json} :
      (∀ a ∈ items, Fits false item a) → Fits underMetadata (.list item) (.array items)
  | object {underMetadata : Bool} {member : String → Shape} {fields : List (String × Json)} :
      (∀ e ∈ fields, ¬ (underMetadata = true ∧ e.1 = managedFields) →
        Fits (e.1 = "metadata") (member e.1) e.2) →
      Fits underMetadata (.object member) (.object fields)

/-- A path that a value of the type may be written at: past the ownership records,
with every list keyed by a scalar of its items. -/
inductive Takes : Bool → Shape → Path → Json → Prop
  | whole {underMetadata : Bool} {shape : Shape} {value : Json} :
      Fits underMetadata shape value → Takes underMetadata shape [] value
  | member {underMetadata : Bool} {member : String → Shape} {name : String} {path : Path}
      {value : Json} : ¬ (underMetadata = true ∧ name = managedFields) →
      Takes (name = "metadata") (member name) path value →
      Takes underMetadata (.object member) (.field name :: path) value
  | item {underMetadata : Bool} {member : String → Shape} {key keyValue : String} {path : Path}
      {value : Json} : member key = .scalar → Takes false (.object member) path value →
      Takes underMetadata (.list (.object member)) (.keyed key keyValue :: path) value

/-! ## Values of a type -/

theorem Fits.string {underMetadata : Bool} {shape : Shape} {s : String}
    (h : Fits underMetadata shape (.string s)) : shape = .scalar := by
  cases h
  rfl

theorem Fits.of_object {underMetadata : Bool} {shape : Shape} {value : Json}
    (h : Fits underMetadata shape value) (hvalue : value.isObject = true) :
    ∃ member, shape = .object member := by
  cases h with
  | scalar hobject _ =>
    rw [hvalue] at hobject
    cases hobject
  | unset => cases hvalue
  | list _ => cases hvalue
  | @object _ member _ _ => exact ⟨member, rfl⟩

/-- The member of an object is of the member's type. -/
theorem Fits.field {underMetadata : Bool} {member : String → Shape} {root value : Json}
    {name : String} (h : Fits underMetadata (.object member) root)
    (hname : ¬ (underMetadata = true ∧ name = managedFields)) (hvalue : root.field name = some value) :
    Fits (name = "metadata") (member name) value := by
  cases h with
  | object hfields => exact hfields (name, value) (mem_of_lookup hvalue) hname

/-- The item a key finds is of the items' type. -/
theorem Fits.found {underMetadata : Bool} {item : Shape} {root value : Json}
    {key keyValue : String} (h : Fits underMetadata (.list item) root)
    (hvalue : child root (.keyed key keyValue) = some value) : Fits false item value := by
  cases h with
  | unset => cases hvalue
  | list hitems => exact hitems value (List.mem_of_find?_eq_some hvalue)

/-- Assigning a member keeps the type. -/
theorem Fits.insertKey {underMetadata : Bool} {member : String → Shape}
    {fields : List (String × Json)} {name : String} {value : Json}
    (h : Fits underMetadata (.object member) (.object fields))
    (hvalue : ¬ (underMetadata = true ∧ name = managedFields) →
      Fits (name = "metadata") (member name) value) :
    Fits underMetadata (.object member) (.object (insertKey name value fields)) := by
  cases h with
  | object hfields =>
    apply Fits.object
    intro e he hskip
    rcases mem_insertKey he with he | rfl
    · exact hfields e he hskip
    · exact hvalue hskip

/-- Dropping members keeps the type. -/
theorem Fits.eraseKey {underMetadata : Bool} {member : String → Shape}
    {fields : List (String × Json)} (name : String)
    (h : Fits underMetadata (.object member) (.object fields)) :
    Fits underMetadata (.object member) (.object (eraseKey name fields)) := by
  cases h with
  | object hfields =>
    apply Fits.object
    intro e he
    exact hfields e (List.mem_of_mem_filter he)

/-! ## What an object declares -/

/-- A value of the type can be written, in any object of the type, at each path that
some value of the type declares and the written one is found at. -/
theorem Declares.takes {underMetadata : Bool} {source : Json} {path : Path}
    (h : Declares underMetadata source path) {shape : Shape} {other value : Json}
    (hsource : Fits underMetadata shape source) (hother : Fits underMetadata shape other)
    (hvalue : get other path = some value) : Takes underMetadata shape path value := by
  induction h generalizing shape other with
  | @member underMetadata fields key found path hmem hskip _ ih =>
    cases hsource with
    | scalar hobject _ => cases hobject
    | @object _ member _ hfields =>
      obtain ⟨next, hnext, hget⟩ := Option.bind_eq_some_iff.mp hvalue
      exact .member hskip (ih (hfields _ hmem hskip) (hother.field hskip hnext) hget)
  | @item underMetadata items a path hnamed ha _ ih =>
    cases hsource with
    | scalar _ harray => cases harray
    | @list _ item _ hitems =>
      have hfits := hitems a ha
      have hname := List.all_eq_true.mp hnamed a ha
      cases hstr : a.strAt "name" with
      | none => simp [hstr] at hname
      | some name =>
        have hfield := Json.strAt_eq_some.mp hstr
        -- The item has a member, so the type has objects in the list.
        have hobject : a.isObject = true := by
          cases a with
          | object fields => rfl
          | _ => cases hfield
        obtain ⟨member, rfl⟩ := hfits.of_object hobject
        obtain ⟨next, hnext, hget⟩ := Option.bind_eq_some_iff.mp hvalue
        have hkey : member "name" = .scalar := (hfits.field (by simp) hfield).string
        exact .item hkey (ih hfits (hother.found hnext) hget)
  | whole _ _ =>
    cases hvalue
    exact .whole hother

/-! ## Writes and removals -/

/-- What a missing intermediate is created as is of the type. -/
theorem Takes.emptyFor {underMetadata : Bool} {shape : Shape} {path : Path} {value : Json}
    (h : Takes underMetadata shape path value) (hpath : path ≠ []) :
    Fits underMetadata shape (emptyFor path) := by
  cases h with
  | whole _ => exact absurd rfl hpath
  | member _ _ => exact .object (by simp)
  | item _ _ => exact .list (by simp)

/-- A write of a value of the type, where the type has it, does not panic. -/
theorem put_fits {underMetadata : Bool} {shape : Shape} {path : Path} {value : Json}
    (h : Takes underMetadata shape path value) {root : Json}
    (hroot : path ≠ [] → Fits underMetadata shape root) :
    ∃ result, put root path value = .ok result ∧ Fits underMetadata shape result := by
  induction h generalizing root with
  | whole hvalue => exact ⟨_, by rw [put], hvalue⟩
  | @member underMetadata member name path value hskip htakes ih =>
    have hfits := hroot (by simp)
    cases hfits with
    | @object _ _ fields hfields =>
      have hstart : path ≠ [] → Fits (name = "metadata") (member name)
          ((lookup name fields).getD (emptyFor path)) := by
        intro hpath
        cases hlookup : lookup name fields with
        | none => exact htakes.emptyFor hpath
        | some current => exact hfields (name, current) (mem_of_lookup hlookup) hskip
      obtain ⟨current, hcurrent, hfit⟩ := ih hstart
      refine ⟨.object (insertKey name current fields), ?_, (Fits.object hfields).insertKey fun _ => hfit⟩
      rw [put, hcurrent]
      rfl
  | @item underMetadata member key keyValue path value hkey htakes ih =>
    have hfits := hroot (by simp)
    cases hfits with
    | @list _ _ items hitems =>
      cases hfind : items.find? fun item => decide (item.strAt key = some keyValue) with
      | some a =>
        obtain ⟨current, hcurrent, hfit⟩ := ih fun _ => hitems a (List.mem_of_find?_eq_some hfind)
        refine ⟨.array (updateFirst (fun item : Json => decide (item.strAt key = some keyValue))
          (fun _ => current) items), ?_, .list ?_⟩
        · simp only [put, hfind, hcurrent]
          rfl
        · intro b hb
          rcases mem_updateFirst hb with hb | ⟨_, _, _, rfl⟩
          · exact hitems b hb
          · exact hfit
      | none =>
        have hfresh : Fits false (.object member) (.object [(key, .string keyValue)]) := by
          apply Fits.object
          intro e he _
          rw [List.mem_singleton.mp he, hkey]
          exact .scalar rfl rfl
        obtain ⟨current, hcurrent, hfit⟩ := ih fun _ => hfresh
        refine ⟨.array (items ++ [current]), ?_, .list ?_⟩
        · simp only [put, hfind, hcurrent]
          rfl
        · intro b hb
          rcases List.mem_append.mp hb with hb | hb
          · exact hitems b hb
          · rw [List.mem_singleton.mp hb]
            exact hfit

/-- A removal keeps the type, at whatever path. -/
theorem Fits.remove {underMetadata : Bool} {shape : Shape} {root : Json}
    (h : Fits underMetadata shape root) (path : Path) :
    Fits underMetadata shape (remove root path) := by
  induction path generalizing underMetadata shape root with
  | nil => cases root <;> exact h
  | cons s path ih =>
    cases h with
    | scalar hobject harray =>
      cases root with
      | object fields => cases hobject
      | array items => cases harray
      | _ => exact .scalar rfl rfl
    | unset => exact .unset
    | @list _ item items hitems =>
      cases s with
      | field name => cases path <;> exact .list hitems
      | keyed key keyValue =>
        cases path with
        | nil => exact .list fun a ha => hitems a (List.mem_of_mem_filter ha)
        | cons t path =>
          apply Fits.list
          intro a ha
          rcases mem_updateFirst ha with ha | ⟨b, hb, _, rfl⟩
          · exact hitems a ha
          · exact ih (hitems b hb)
    | @object _ member fields hfields =>
      cases s with
      | field name =>
        cases path with
        | nil => exact (Fits.object hfields).eraseKey name
        | cons t path =>
          apply Fits.object
          intro e he hskip
          rcases mem_updateFirst he with he | ⟨d, hd, _, rfl⟩
          · exact hfields e he hskip
          · exact ih (hfields d hd hskip)
      | keyed key keyValue => cases path <;> exact .object hfields

/-- Pruning keeps the type. -/
theorem Fits.prune {underMetadata : Bool} {shape : Shape} {root : Json}
    (h : Fits underMetadata shape root) : Fits underMetadata shape (prune root) := by
  induction h with
  | @scalar _ value hobject harray =>
    cases value with
    | object fields => cases hobject
    | array items => cases harray
    | _ => exact .scalar rfl rfl
  | unset => exact .unset
  | list _ ih =>
    rw [prune_array]
    apply Fits.list
    intro a ha
    obtain ⟨b, hb, rfl⟩ := List.mem_map.mp (List.mem_of_mem_filter ha)
    exact ih b hb
  | object _ ih =>
    rw [prune_object]
    apply Fits.object
    intro e he hskip
    obtain ⟨d, hd, rfl⟩ := List.mem_map.mp he
    exact ih d hd hskip

end Hedronetes.Apply
