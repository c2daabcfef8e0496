import FastAdHunter.Http.Dialled

/-!
# What the origin is told

The verdict on a request is taken on one host; the origin receives a `Host` field or,
in HTTP/2, an authority. The plain proxy and the HTTP/1 side of interception pass the
client's own field on as it stands, so whatever the reading of the claim drops from
it, user information or a port that is no number, still reaches the origin. A field
that `Connection` names is removed like any other, and the client of the library then
writes the address in its place.
-/

namespace FastAdHunter.Http

open Lib Net Common Rules
open List hiding next tail

section Header

variable {lib : HttpLibrary} {request : Request} {port : UInt16} {allow : Bool}
  {claim : Destination} {value : Bytes}

end Header

section Server

/-- The bytes of a name in a greeting. -/
def isNameByte (b : UInt8) : Bool :=
  isAsciiLowercase b || isAsciiDigit b || b == ch '.' || b == ch '-' || b == ch '_'

lemma normalizeByte_spec (h : Sni.normalizeByte label isLast byte = some (b, next)) :
    isNameByte b = true ∧ (isLast = true → b ≠ ch '.') := by
  rw [Sni.normalizeByte] at h
  split at h
  · next hdot =>
      split at h
      · cases h
      · next hnot =>
          cases h
          rw [hdot]
          exact ⟨by decide, fun hlast => absurd (.inr hlast) hnot⟩
  · next hdot =>
      split at h
      · next hdash =>
          split at h
          · cases h
          · cases h
            rw [hdash]
            exact ⟨by decide, fun _ => by decide⟩
      · split at h
        · next hname =>
            split at h
            · cases h
            · cases h
              simp only [isNameByte, Bool.or_eq_true] at hname ⊢
              tauto
        · cases h

lemma normalizeFrom_spec (h : Sni.normalizeFrom label raw = some host) :
    (∀ b ∈ host, isNameByte b = true) ∧ host.getLast? ≠ some (ch '.') := by
  induction raw generalizing label host with
  | nil =>
    cases h
    simp
  | cons byte rest ih =>
    obtain ⟨⟨b, next⟩, hbyte, hrest⟩ := Option.bind_eq_some_iff.mp h
    obtain ⟨tail, htail, rfl⟩ := Option.map_eq_some_iff.mp hrest
    obtain ⟨hb, hlast⟩ := normalizeByte_spec hbyte
    obtain ⟨hall, hend⟩ := ih htail
    refine ⟨forall_mem_cons.mpr ⟨hb, hall⟩, ?_⟩
    cases tail with
    | nil =>
      have hnil : rest = [] := by
        cases rest with
        | nil => rfl
        | cons c rest =>
          obtain ⟨_, _, hmap⟩ := Option.bind_eq_some_iff.mp htail
          obtain ⟨_, _, hcons⟩ := Option.map_eq_some_iff.mp hmap
          cases hcons
      subst hnil
      simpa using hlast rfl
    | cons c tail => simpa using hend

lemma IsServerName.plain (h : IsServerName host) :
    (∀ b ∈ host, isNameByte b = true) ∧ host.getLast? ≠ some (ch '.') := by
  obtain ⟨raw, hraw⟩ := h
  rw [Sni.normalizeHost] at hraw
  split at hraw
  · cases hraw
  · exact normalizeFrom_spec hraw

variable {host claimed : Bytes}

end Server

section Requests

/-- Whatever else is done, requests are sent only as `sent` says. -/
def NetAccess.Sends (sent : SocketAddr → Alpn → Request → Prop) :
    {δ : Type} → NetAccess δ → Prop
  | _, .exchange address alpn request => sent address alpn request
  | _, _ => True

variable {δ : Type} {op : NetAccess δ}

lemma NetAccess.Quiet.sends (h : op.Quiet)
    (sent : SocketAddr → Alpn → Request → Prop) : op.Sends sent := by
  cases op <;> trivial

lemma NetAccess.Reaches.sends (h : op.Reaches address sent) :
    op.Sends fun a alpn request => a = address ∧ sent alpn request := by
  cases op <;> trivial

lemma NetAccess.Sends.mono (h : op.Sends sent)
    (hsent : ∀ a alpn request, sent a alpn request → sent' a alpn request) : op.Sends sent' := by
  cases op with
  | exchange a alpn request => exact hsent a alpn request h
  | _ => trivial

variable {lib : HttpLibrary}

end Requests

end FastAdHunter.Http
