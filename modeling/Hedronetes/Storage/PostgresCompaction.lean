import Hedronetes.Storage.PostgresInvariant

/-!
# Compaction beside readers in the shared registry

`compact` reads the floor in one statement and overwrites it in a later one; `list`
checks the floor in one statement and reads the rows in the next. The floor never
falls when each overwrite still finds it below, and then it is the greatest
revision compacted at, so a list whose query still finds it below reads everything.
-/

namespace Hedronetes.Storage.Postgres

open VersionLog CursorScan Fallible Runs

variable {sealer : SecretsSealer}

/-- From the overwrite of the floor to its commit the floor stays below. -/
def FloorReady (t : Tables) : Session → Prop
  | .floored rev _ _ => t.compacted ≤ rev
  | _ => True

theorem FloorReady.of_not_holds {t : Tables} {session : Session} (h : session.holds = false) :
    FloorReady t session := by
  cases session <;> trivial

/-- The revision a list reads is the one it was asked for, if it was asked for one. -/
def Requested (sel : ListSelect) (revision : ℕ) : Prop :=
  ∀ r, sel.atRevision = some r → r ≠ 0 → revision = r

/-- A page is the page of the full history at its revision. -/
structure ListsSnapshot (sealer : SecretsSealer) (d : Database) (sel : ListSelect)
    (page : ObjectList) : Prop where
  requested : Requested sel page.revision
  head : page.revision ≤ d.tables.revision
  exact : listPage (openRowValue sealer) sel page.revision (rowsOf d.log) = .ok page

/-- What a list that is open or done has read. -/
def ListInv (sealer : SecretsSealer) (d : Database) : Session → Prop
  | .listing sel revision => Requested sel revision ∧ revision ≤ d.tables.revision
  | .done (.listed sel page) => ListsSnapshot sealer d sel page
  | _ => True

theorem listHead_ok {sel : ListSelect} {t : Tables} {revision : ℕ}
    (h : listHead sel t = .ok revision) :
    revision = listRevision sel.atRevision t.revision ∧ t.compacted ≤ revision ∧
      revision ≤ t.revision := by
  obtain ⟨⟨⟩, _, h⟩ := bind_eq_ok.mp h
  obtain ⟨⟨⟩, hvalid, h⟩ := bind_eq_ok.mp h
  unfold revisionI64 at h
  split_ifs at h
  have he := (Except.ok.inj h).symm
  obtain ⟨hfloor, hhead⟩ := validateRevision_ok.mp hvalid
  exact ⟨he, he ▸ hfloor, he ▸ hhead⟩

/-- Rows past its revision do not change a page. -/
theorem listPage_append {openValue : Bytes → Result Bytes} {sel : ListSelect} {revision : ℕ}
    {log new : List Row} (ho : Ordered (log ++ new)) (h : ∀ v ∈ new, revision < v.revision) :
    listPage openValue sel revision (log ++ new) = listPage openValue sel revision log :=
  listPage_congr ho (List.pairwise_append.mp ho).1 (visible_append h)

theorem ListInv.other {d d' : Database} {session mover : Session} (h : ListInv sealer d session)
    (hc : Consistent (rowsOf d'.log) d'.horizon d'.tables) (ht : Touches d mover d')
    (hm : SessionInv sealer d mover) : ListInv sealer d' session := by
  obtain ⟨hle, new, hrows, hnew⟩ := ht.extends hm
  cases session with
  | listing sel revision => exact ⟨h.1, h.2.trans hle⟩
  | done outcome =>
    cases outcome with
    | listed sel page =>
      have hs : ListsSnapshot sealer d sel page := h
      refine ⟨hs.requested, hs.head.trans hle, ?_⟩
      have ho := hc.ordered
      rw [hrows] at ho ⊢
      rw [listPage_append ho fun v hv => hs.head.trans_lt (hnew v hv)]
      exact hs.exact
    | _ => trivial
  | _ => trivial

end Hedronetes.Storage.Postgres
