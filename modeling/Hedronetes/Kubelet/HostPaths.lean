import Hedronetes.Kubelet.Volumes

/-!
# Where the mounts lead to

The names of volumes and claims are single components, so what is joined from them stays below its
directory. The subpath of a claim is joined as it stands.
-/

namespace Hedronetes.Kubelet

open Server Api Fallible LexicalPaths

/-! ## Joined text -/

variable {cwd : List String} {path s t : String}

/-- The directory of a claim, one component below the provisioner's. -/
def claimDirectory (ns claim : String) : List String :=
  ["var", "lib", "hedronetes", "local-path", ns ++ "_" ++ claim]

variable {p spec ctr v m : Json} {names : List String}

theorem text_ok {key : String} : text v key = .ok s ↔ v[key] = .string s ∧ s ≠ "" :=
  mapError_eq_ok.trans Api.text_ok

theorem array_ok {items : List Json} (h : array v = .ok items) : v.items = items := by
  unfold array at h
  split_ifs at h with hnull
  · obtain rfl := Except.ok.inj h
    rw [hnull]
    rfl
  · cases hitems : v.asArray with
    | none =>
      rw [hitems] at h
      cases h
    | some l =>
      rw [hitems] at h
      obtain rfl := Except.ok.inj h
      rw [Json.items, hitems]
      rfl

/-- The location is below the volume directory of the Pod or the directory of a claim it names. -/
def Within (cwd : List String) (p : Json) (ns podRoot : String) (location : List String) : Prop :=
  resolve cwd (push podRoot "volumes") <+: location ∨
    ∃ v ∈ volumesOf p["spec"], ∃ claim, v["persistentVolumeClaim"]["claimName"] = .string claim ∧
      claimDirectory ns claim <+: location

variable {ns podRoot claim sub : String}

/-- A relative subpath goes up no further than it went down. Any other one has to come back. -/
def Confined (cwd : List String) (p : Json) (ns podRoot claim sub : String) : Prop :=
  if isAbsolute sub then Within cwd p ns podRoot (walk [] (segments sub))
  else (reduce (segments sub)).climbs = 0 ∨
    Within cwd p ns podRoot ((reduce (segments sub)).apply (claimDirectory ns claim))

/-- A Pod whose one mount goes through a claim with the given subpath. -/
def webPod (sub : String) : Json :=
  .object [("metadata", .object [("name", .string "web"), ("namespace", .string "default"),
      ("uid", .string "1")]),
    ("spec", podOf [.object [("name", .string "data"), ("persistentVolumeClaim",
      .object [("claimName", .string "web"), ("subPath", .string sub)])]] [mountOf "data" "/data"])]

end Hedronetes.Kubelet
