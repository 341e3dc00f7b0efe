import Hedronetes.Foundations.FirstFree
import Hedronetes.Server.Services

/-!
# The node ports of a Service

Ports are served in the order of their list. What a port states or had before is given to it, and
every other port gets the first number of the range that is free at its turn, even if a later port
needs that number.
-/

namespace Hedronetes.Server.Services

open FirstMatch Apply FirstFree

variable {previous : Option Json} {port result : Json} {ports results : List Json} {used : List ℕ}
  {selected : ℕ}

/-- The number a port states or had before. -/
def settled (previous : Option Json) (port : Json) : Option ℕ :=
  (nodePort port).or (before previous port)

/-- What a port states does not contradict what it had. -/
def agrees (previous : Option Json) (port : Json) : Bool :=
  (nodePort port).all fun stated => (before previous port).all fun kept => kept = stated

def demands (previous : Option Json) (ports : List Json) : List (Option ℕ) :=
  ports.map (settled previous)

theorem selectPort_ok : selectPort previous port used = .ok selected ↔
    agrees previous port = true ∧
      (settled previous port).or (nodePortRange.find? (· ∉ used)) = some selected := by
  unfold selectPort agrees settled
  cases hstated : nodePort port with
  | some stated =>
    cases hkept : before previous port with
    | some kept =>
      by_cases hsame : kept = stated
      · simp [hsame]
      · simp [hsame]
    | none => simp
  | none =>
    cases hkept : before previous port with
    | some kept => simp
    | none => cases nodePortRange.find? (· ∉ used) <;> simp

theorem serve_demand {numbers : List ℕ} :
    FirstFree.serve nodePortRange (demands previous (port :: ports)) used = some numbers ↔
      ∃ n rest, (settled previous port).or (nodePortRange.find? (· ∉ used)) = some n ∧ n ∉ used ∧
        FirstFree.serve nodePortRange (demands previous ports) (n :: used) = some rest ∧
        numbers = n :: rest := by
  unfold demands
  rw [List.map_cons, FirstFree.serve]
  cases (settled previous port).or (nodePortRange.find? (· ∉ used)) with
  | none => simp
  | some n =>
    by_cases hused : n ∈ used
    · simp [hused]
    · simp only [if_neg hused, Option.map_eq_some_iff, Option.some.injEq]
      constructor
      · rintro ⟨rest, hrest, rfl⟩
        exact ⟨n, rest, rfl, hused, hrest, rfl⟩
      · rintro ⟨_, rest, rfl, _, hrest, rfl⟩
        exact ⟨rest, hrest, rfl⟩

/-- The port publishes this number. -/
def Publishes (n : ℕ) (result : Json) : Prop := result["nodePort"] = .number (.int n)

/-- Nothing else of the port changes. -/
def KeepsPort (port result : Json) : Prop := ∀ field, field ≠ "nodePort" → result[field] = port[field]

/-- What is assigned is what serving the demands gives. -/
theorem nodePorts_serves (h : nodePorts previous ports used = .ok results) :
    (∀ port ∈ ports, agrees previous port = true) ∧
      ∃ numbers, FirstFree.serve nodePortRange (demands previous ports) used = some numbers ∧
        List.Forall₂ Publishes numbers results ∧ List.Forall₂ KeepsPort ports results := by
  induction ports generalizing used results with
  | nil =>
    obtain rfl := Except.ok.inj h
    exact ⟨by simp, [], rfl, List.Forall₂.nil, List.Forall₂.nil⟩
  | cons port ports ih =>
    obtain ⟨n, hn, h⟩ := Fallible.bind_eq_ok.mp h
    obtain ⟨_, hfree, h⟩ := Fallible.bind_eq_ok.mp h
    obtain ⟨result, hresult, h⟩ := Fallible.bind_eq_ok.mp h
    obtain ⟨rest, hrest, h⟩ := Fallible.bind_eq_ok.mp h
    obtain rfl := Except.ok.inj h
    obtain ⟨hagrees, hselected⟩ := selectPort_ok.mp hn
    obtain ⟨hall, numbers, hserve, hpublishes, hkeeps⟩ := ih hrest
    refine ⟨List.forall_mem_cons.mpr ⟨hagrees, hall⟩, n :: numbers, ?_, ?_, ?_⟩
    · exact serve_demand.mpr ⟨n, numbers, hselected, require_ok.mp hfree, hserve, rfl⟩
    · exact List.Forall₂.cons (getElem_setAt hresult) hpublishes
    · exact List.Forall₂.cons (fun field hne => getElem_setAt_ne hresult hne) hkeeps

theorem nodePorts_exists {numbers : List ℕ} (hobjects : ∀ port ∈ ports, port.isObject = true)
    (hagrees : ∀ port ∈ ports, agrees previous port = true)
    (hserve : FirstFree.serve nodePortRange (demands previous ports) used = some numbers) :
    ∃ results, nodePorts previous ports used = .ok results := by
  induction ports generalizing used numbers with
  | nil => exact ⟨[], rfl⟩
  | cons port ports ih =>
    obtain ⟨n, rest, hselected, hfree, hrest, rfl⟩ := serve_demand.mp hserve
    obtain ⟨results, hresults⟩ := ih (fun p hp => hobjects p (List.mem_cons_of_mem port hp))
      (fun p hp => hagrees p (List.mem_cons_of_mem port hp)) hrest
    obtain ⟨fields, hfields⟩ := Json.isObject_iff.mp (hobjects port List.mem_cons_self)
    have hnumbered : ∃ result, setAt port ["nodePort"] (.number (.int n)) = .ok result := by
      rw [hfields]
      exact ⟨_, rfl⟩
    obtain ⟨result, hresult⟩ := hnumbered
    have hpicked := selectPort_ok.mpr ⟨hagrees port List.mem_cons_self, hselected⟩
    exact ⟨result :: results, Fallible.bind_eq_ok.mpr ⟨n, hpicked, Fallible.bind_eq_ok.mpr
      ⟨(), require_ok.mpr hfree, Fallible.bind_eq_ok.mpr ⟨result, hresult,
        Fallible.bind_eq_ok.mpr ⟨results, hresults, rfl⟩⟩⟩⟩⟩

/-! ## What an assignment owes -/

/-- A port gets what it states, what it had, or a number of the range. -/
structure Gets (previous : Option Json) (port : Json) (n : ℕ) : Prop where
  stated : ∀ stated, nodePort port = some stated → n = stated
  kept : ∀ kept, before previous port = some kept → n = kept
  chosen : nodePort port = none → before previous port = none → n ∈ nodePortRange

/-- The ports keep everything else, get what they should, and publish different numbers that no
other Service uses. -/
def Assigns (previous : Option Json) (ports : List Json) (used : List ℕ) (results : List Json) :
    Prop :=
  ∃ numbers, List.Forall₂ (Gets previous) ports numbers ∧ List.Forall₂ Publishes numbers results ∧
    List.Forall₂ KeepsPort ports results ∧ numbers.Nodup ∧ ∀ n ∈ numbers, n ∉ used

/-- The stated and the kept numbers are different and unused, none contradicts another, and the
range has room for the rest. -/
structure Assignable (previous : Option Json) (ports : List Json) (used : List ℕ) : Prop where
  agrees : ∀ port ∈ ports, agrees previous port = true
  servable : Servable nodePortRange (demands previous ports) used

theorem nodePortRange_sorted : nodePortRange.Pairwise (· < ·) := List.pairwise_lt_range'

theorem gets_of_serves {n : ℕ} (hagrees : agrees previous port = true)
    (h : Serves nodePortRange (settled previous port) n) : Gets previous port n := by
  unfold settled at h
  constructor
  · intro stated hstated
    exact h.1 stated (by rw [hstated, Option.some_or])
  · intro kept hkept
    cases hstated : nodePort port with
    | none => exact h.1 kept (by rw [hstated, Option.none_or, hkept])
    | some stated =>
      have hsame : kept = stated := by simpa [agrees, hstated, hkept] using hagrees
      rw [hsame]
      exact h.1 stated (by rw [hstated, Option.some_or])
  · intro hstated hkept
    exact h.2 (by rw [hstated, hkept, Option.none_or])

theorem nodePorts_assigns (h : nodePorts previous ports used = .ok results) :
    Assigns previous ports used results := by
  obtain ⟨hagrees, numbers, hserve, hpublishes, hkeeps⟩ := nodePorts_serves h
  obtain ⟨hserves, hnodup, hfree⟩ := serve_sound hserve
  refine ⟨numbers, ?_, hpublishes, hkeeps, hnodup, hfree⟩
  have hboth := (List.forall₂_and_left _ _).mpr ⟨hagrees, List.forall₂_map_left_iff.mp hserves⟩
  apply hboth.imp
  rintro port n ⟨hport, hstates, hchooses⟩
  exact gets_of_serves hport ⟨hstates, hchooses⟩

/-- An assignment that succeeds is right. It succeeds whenever it can if and only if below every
stated or kept number of the range there are as many free numbers as ports that choose before it. -/
theorem node_ports_complete_iff (hobjects : ∀ port ∈ ports, port.isObject = true) :
    (∀ results, nodePorts previous ports used = .ok results →
      Assigns previous ports used results) ∧
    ((Assignable previous ports used → ∃ results, nodePorts previous ports used = .ok results) ↔
      (Assignable previous ports used →
        Unobstructed nodePortRange (demands previous ports) used)) := by
  refine ⟨fun results h => nodePorts_assigns h, ?_⟩
  apply forall_congr'
  intro hassignable
  rw [← served_iff nodePortRange_sorted hassignable.servable]
  constructor
  · rintro ⟨results, h⟩
    obtain ⟨_, numbers, hserve, _⟩ := nodePorts_serves h
    exact ⟨numbers, hserve⟩
  · rintro ⟨numbers, hserve⟩
    exact nodePorts_exists hobjects hassignable.agrees hserve

/-- A port added after the published one gets the next number. -/
theorem port_added_last :
    ∃ results, nodePorts (some (.object [("ports", .array [.object [("name", .string "web"),
        ("nodePort", .number (.int 30000)), ("port", .number (.int 80))]])]))
      [.object [("name", .string "web"), ("port", .number (.int 80))],
        .object [("name", .string "admin"), ("port", .number (.int 81))]] [] = .ok results := by
  apply (node_ports_complete_iff (by decide)).2.mpr
  · intro _ before f after hsplit _
    match before, hsplit with
    | [], _ => exact Nat.zero_le _
    | [_], hsplit =>
      exact nomatch (show (none : Option ℕ) = some f from
        (List.cons.inj (List.cons.inj hsplit).2).1)
    | _ :: _ :: _, hsplit =>
      exact absurd (List.cons.inj (List.cons.inj hsplit).2).2 (by simp)
  · refine ⟨by decide +kernel, by decide +kernel, by decide +kernel, ?_⟩
    apply List.length_pos_of_mem (a := 30001)
    exact mem_free.mpr ⟨List.mem_range'_1.mpr (by omega), by simp, by decide +kernel⟩

/-- A port added before a published one takes its number, and the update is refused. -/
theorem added_port_takes_number :
    Assignable (some (.object [("ports", .array [.object [("name", .string "web"),
        ("nodePort", .number (.int 30000)), ("port", .number (.int 80))]])]))
      [.object [("name", .string "admin"), ("port", .number (.int 81))],
        .object [("name", .string "web"), ("port", .number (.int 80))]] [] ∧
    nodePorts (some (.object [("ports", .array [.object [("name", .string "web"),
        ("nodePort", .number (.int 30000)), ("port", .number (.int 80))]])]))
      [.object [("name", .string "admin"), ("port", .number (.int 81))],
        .object [("name", .string "web"), ("port", .number (.int 80))]] [] =
      .error (invalid "nodePort already allocated") := by
  refine ⟨⟨by decide +kernel, by decide +kernel, by decide +kernel, ?_⟩, by rfl⟩
  apply List.length_pos_of_mem (a := 30001)
  exact mem_free.mpr ⟨List.mem_range'_1.mpr (by omega), by simp, by decide +kernel⟩

end Hedronetes.Server.Services
