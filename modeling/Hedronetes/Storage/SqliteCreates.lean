import Hedronetes.Storage.SqliteInvariant

/-!
# A batch of creates

Objects under distinct new keys can be created one after the other, each by a connection of its
own. The registry then shows exactly them.
-/

namespace Hedronetes.Storage.Sqlite

open VersionLog CursorScan Fallible Runs

variable {sealer : SecretsSealer}

/-- Object `i` is created by connection `i`. -/
def creates (objs : List StoredObject) : List (ℕ × Action) :=
  objs.zipIdx.map fun e => (e.2, .begin (.mutate 0 (.create e.1)))

/-- The rows that the creates leave in a fresh registry. -/
def createdRows (objs : List StoredObject) : List Row :=
  objs.zipIdx.map fun e => ⟨e.1.key, e.2 + 1, ⟨e.1.value, 0⟩⟩

@[simp] theorem creates_snoc (objs : List StoredObject) (obj : StoredObject) :
    creates (objs ++ [obj]) =
      creates objs ++ [(objs.length, .begin (.mutate 0 (.create obj)))] := by
  simp [creates, List.zipIdx_append]

@[simp] theorem createdRows_snoc (objs : List StoredObject) (obj : StoredObject) :
    createdRows (objs ++ [obj]) =
      createdRows objs ++ [⟨obj.key, objs.length + 1, ⟨obj.value, 0⟩⟩] := by
  simp [createdRows, List.zipIdx_append]

@[simp] theorem length_createdRows (objs : List StoredObject) :
    (createdRows objs).length = objs.length := by
  simp [createdRows]

theorem createdRows_keys (objs : List StoredObject) :
    (createdRows objs).map (fun v : Row => v.key) = objs.map StoredObject.key := by
  induction objs using List.reverseRecOn with
  | nil => rfl
  | append_singleton objs obj ih => simp [ih]

/-- A row of the batch stores the bytes of an object, as its first version. -/
theorem mem_createdRows {objs : List StoredObject} {v : Row} (h : v ∈ createdRows objs) :
    v.revision ≤ objs.length ∧ isLive v = true ∧
      ∃ obj ∈ objs, v.key = obj.key ∧ v.value.bytes = obj.value := by
  obtain ⟨⟨obj, i⟩, he, rfl⟩ := List.mem_map.mp h
  have hi := List.snd_lt_of_mem_zipIdx he
  refine ⟨by simpa using hi, rfl, obj, List.fst_mem_of_mem_zipIdx he, rfl, rfl⟩

/-- A create of a new key goes through. -/
theorem mutateTx_create {log : List Row} {t : Tables} (h : Consistent log t.compacted t)
    {obj : StoredObject} (hnew : ∀ v ∈ log, v.key ≠ obj.key) (hplain : isSecretKey obj.key = false)
    (hopen : hasEnvelope obj.value = false) (hfits : t.revision < maxRevision) :
    mutateTx sealer 0 (.create obj) t =
      .ok (⟨t.revision + 1, t.compacted,
        t.versions ++ [⟨obj.key, t.revision + 1, ⟨obj.value, 0⟩⟩], t.leases⟩,
        ⟨obj.key, t.revision + 1, ⟨obj.value, 0⟩⟩, obj.value) := by
  have hnone : currentObject obj.key t.versions = none := by
    rw [h.currentObject_eq, currentObject_eq_none]
    intro row hrow
    exact absurd (latest_mem hrow).2 (hnew row (latest_mem hrow).1)
  have hprepare : prepare sealer 0 (.create obj) (currentObject obj.key t.versions) =
      .ok ⟨obj.key, obj.value, 0⟩ := by
    rw [hnone]
    simp [prepare, Mutation.obj, Mutation.expected, Mutation.deletes, checkExpected, changeKind,
      storedValue, sealValue, hplain, kindNumber, bind, Except.bind, pure, Except.pure]
  have hbump : bumpRevision overflow t = .ok (t.revision + 1) := by
    rw [bumpRevision, if_pos hfits]
  have hstored : revisionI64 (t.revision + 1) = .ok (t.revision + 1) := by
    rw [revisionI64, if_pos (Nat.succ_le_of_lt hfits)]
  have hreturned : returnedValue (decodeRowValue sealer) (.create obj) ⟨obj.key, obj.value, 0⟩ =
      .ok obj.value := by
    simp [returnedValue, Mutation.deletes, decodeRowValue, hopen]
  refine bind_eq_ok.mpr ⟨_, hprepare, bind_eq_ok.mpr ⟨_, hbump, bind_eq_ok.mpr ⟨_, hreturned,
    bind_eq_ok.mpr ⟨_, hstored, bind_eq_ok.mpr ⟨_, h.insertRow_eq clash rfl, rfl⟩⟩⟩⟩⟩

/-- A batch of creates of distinct keys runs to its end. -/
theorem creates_run (objs : List StoredObject) (hkeys : (objs.map StoredObject.key).Nodup)
    (hplain : ∀ obj ∈ objs, isSecretKey obj.key = false ∧ hasEnvelope obj.value = false)
    (hfits : objs.length ≤ maxRevision) :
    ∃ s, AnyRun (step sealer) .initial (creates objs) s ∧
      s.tables = ⟨objs.length, 0, createdRows objs, []⟩ ∧ rowsOf s.log = createdRows objs ∧
      ∀ i, objs.length ≤ i → s.sessions i = .idle := by
  induction objs using List.reverseRecOn with
  | nil => exact ⟨.initial, .nil, rfl, rfl, fun _ _ => rfl⟩
  | append_singleton objs obj ih =>
    rw [List.map_append, List.nodup_append] at hkeys
    rw [List.length_append, List.length_singleton] at hfits
    obtain ⟨s, hrun, htables, hlog, hidle⟩ := ih hkeys.1 (fun o ho => hplain o (by simp [ho]))
      (by omega)
    have hsound := reachable_sound hrun
    have hnew : ∀ v ∈ rowsOf s.log, v.key ≠ obj.key := by
      intro v hv
      rw [hlog] at hv
      obtain ⟨_, _, o, ho, hkey, _⟩ := mem_createdRows hv
      rw [hkey]
      exact hkeys.2.2 _ (List.mem_map_of_mem ho) _ (by simp)
    have htx : mutateTx sealer 0 (.create obj) s.tables = _ :=
      mutateTx_create hsound hnew (hplain obj (by simp)).1 (hplain obj (by simp)).2 (by
        rw [htables]
        exact Nat.lt_of_succ_le hfits)
    rw [htables] at htx
    let row : Row := ⟨obj.key, objs.length + 1, ⟨obj.value, 0⟩⟩
    refine ⟨⟨⟨objs.length + 1, 0, createdRows objs ++ [row], []⟩, s.log ++ [⟨.create obj, row⟩],
      Function.update s.sessions objs.length (.reporting row obj.value)⟩, ?_, ?_, ?_, ?_⟩
    · rw [creates_snoc]
      refine hrun.snoc trivial ?_
      simp only [step, hidle objs.length le_rfl, Session.ready, if_true, startCall, htables, htx]
      rfl
    · simp [row]
    · simp [hlog, row]
    · intro i hi
      rw [List.length_append, List.length_singleton] at hi
      have hne : i ≠ objs.length := by omega
      change Function.update s.sessions objs.length _ i = _
      rw [Function.update_of_ne hne]
      exact hidle i (by omega)

/-- The registry shows every row of the batch. -/
theorem visible_created {objs : List StoredObject} (hkeys : (objs.map StoredObject.key).Nodup)
    {selected : String} (hunder : ∀ obj ∈ objs, underPrefix selected obj.key = true) {s : State}
    {ls : List (ℕ × Action)} (hrun : AnyRun (step sealer) .initial ls s)
    (hlog : rowsOf s.log = createdRows objs) :
    (visible selected objs.length (createdRows objs)).Perm (createdRows objs) := by
  have ho : Ordered (createdRows objs) := hlog ▸ (reachable_sound hrun).ordered
  have hnodup : ((createdRows objs).map fun v : Row => v.key).Nodup := by
    rw [createdRows_keys]
    exact hkeys
  have hall : ∀ v ∈ createdRows objs, v ∈ snapshot objs.length (createdRows objs) := by
    intro v hv
    refine (mem_snapshot ho).mpr ((newest_eq_some ho).mpr ⟨hv, ?_, fun u hu hkey => ?_⟩)
    · simp [(mem_createdRows hv).1]
    · have huv : u.key = v.key := by
        have := of_decide_eq_true hkey
        exact this.1
      rw [List.inj_on_of_nodup_map hnodup hu hv huv]
  have hfilter : (snapshot objs.length (createdRows objs)).filter
      (fun v => isLive v && underPrefix selected v.key) = createdRows objs := by
    have hsnap : snapshot objs.length (createdRows objs) = createdRows objs :=
      Ascending.eq_of_sublist ho List.filter_sublist hall
    rw [hsnap]
    refine List.filter_eq_self.mpr fun v hv => ?_
    obtain ⟨_, hlive, obj, hobj, hkey, _⟩ := mem_createdRows hv
    rw [hlive, hkey, hunder obj hobj]
    rfl
  have hperm : (orderBy keyText ((snapshot objs.length (createdRows objs)).filter
    fun v => isLive v && underPrefix selected v.key)).Perm _ := orderBy_perm _
  rw [hfilter] at hperm
  rw [visible, hfilter]
  exact hperm

/-! ## A batch of any size for the examples -/

theorem splitOn_segment {segment : List Char} (h : validSegment segment = true) (rest : List Char) :
    List.splitOn '/' (segment ++ '/' :: rest) = segment :: List.splitOn '/' rest ∧
      List.splitOn '/' segment = [segment] := by
  have hnone : ∀ c ∈ segment, (c == '/') = false := by
    intro c hc
    rw [beq_eq_false_iff_ne]
    rintro rfl
    simp only [validSegment, Bool.and_eq_true, List.all_eq_true] at h
    exact absurd (h.2 '/' hc) (by decide)
  exact ⟨List.splitOnP_append_cons_of_forall_mem hnone '/' (by simp) rest,
    List.splitOnP_eq_singleton hnone⟩

theorem validSegment_replicate (n : ℕ) : validSegment (List.replicate (n + 1) 'a') = true := by
  have hdots : ∀ dots : List Char, 'a' ∉ dots → List.replicate (n + 1) 'a' ≠ dots := by
    rintro dots hnot rfl
    exact hnot (by simp)
  simp [validSegment, hdots]

/-- The key of the object number `n` of a resource. -/
def nthKey (plural : String) (h : validSegment plural.toList = true) (n : ℕ) : StoreKey where
  value := "/registry/" ++ plural ++ "/test/" ++ String.ofList (List.replicate (n + 1) 'a')
  valid := by
    have hname := validSegment_replicate n
    have hpath : ("/registry/" ++ plural ++ "/test/" ++
        String.ofList (List.replicate (n + 1) 'a')).toList = [] ++ '/' :: ("registry".toList ++
          '/' :: (plural.toList ++ '/' :: ("test".toList ++ '/' :: List.replicate (n + 1) 'a'))) := by
      simp [String.toList_append]
    have hroot : ∀ rest : List Char, List.splitOn '/' ([] ++ '/' :: rest) =
        [] :: List.splitOn '/' rest := fun rest =>
      List.splitOnP_append_cons_of_forall_mem (by simp) '/' (by simp) rest
    rw [validKey, hpath, hroot, (splitOn_segment (by decide) _).1, (splitOn_segment h _).1,
      (splitOn_segment (by decide) _).1, (splitOn_segment hname []).2]
    simp [h, hname]
    decide

theorem nthKey_injective (plural : String) (h : validSegment plural.toList = true) :
    Function.Injective (nthKey plural h) := by
  intro m n he
  have hvalue := congrArg (fun k => k.value.toList.length) he
  simpa [nthKey, String.toList_append] using hvalue

theorem nthKey_path (plural : String) (h : validSegment plural.toList = true) (n : ℕ) :
    (nthKey plural h n).value.toList = "/registry/".toList ++
      (plural.toList ++ '/' :: ("test/".toList ++ List.replicate (n + 1) 'a')) := by
  simp [nthKey, String.toList_append]

theorem isPrefixOf?_self_append (start rest : List Char) :
    start.isPrefixOf? (start ++ rest) = some rest := by
  induction start with
  | nil => rfl
  | cons c start ih => simp [List.isPrefixOf?, ih]

theorem isSecretKey_nthKey {plural : String} {h : validSegment plural.toList = true}
    (hne : plural ≠ "secrets") (n : ℕ) : isSecretKey (nthKey plural h n) = false := by
  rw [isSecretKey, nthKey_path, isPrefixOf?_self_append]
  dsimp only
  rw [(splitOn_segment h _).1, List.head?_cons, decide_eq_false_iff_not, Option.some.injEq,
    String.toList_inj]
  exact hne

/-- The first `n` objects of a resource, all with the same bytes. -/
def batch (plural : String) (h : validSegment plural.toList = true) (bytes : Bytes) (n : ℕ) :
    List StoredObject :=
  (List.range n).map fun i => ⟨nthKey plural h i, bytes, 0⟩

theorem batch_keys (plural : String) (h : validSegment plural.toList = true) (bytes : Bytes)
    (n : ℕ) : ((batch plural h bytes n).map StoredObject.key).Nodup := by
  rw [batch, List.map_map]
  exact List.nodup_range.map (nthKey_injective plural h)

end Hedronetes.Storage.Sqlite
