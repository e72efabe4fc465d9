import RubyOAuth.Lib.Fallible
import RubyOAuth.Model.RequestProxy

set_option autoImplicit false

/-! # `JabberRequest`

The proxy of an XMPP stanza: the parameters are the elements under its `oauth` element, the method is the
name of the stanza, and what stands for a URL are its two addresses without their resources. -/

namespace RubyOAuth

open Bytes

/-- `strip.to_s` of a Jabber address, which the repository does not define: the address without its
    resource. A resource begins with the slash, and no other part of an address may hold a slash or an
    ampersand. -/
structure JidText (Jid : Type) where
  bare : Jid → Bytes
  slash_not_mem_bare : ∀ j, slash ∉ bare j
  ampersand_not_mem_bare : ∀ j, ampersand ∉ bare j

/-! ## URIs without a slash -/

/-- Without a slash there is no host to normalize. -/
theorem normalizeUri_of_no_slash {s : Bytes} (h : slash ∉ s) (t : Bytes) : normalizeUri s ≠ .ok t := by
  intro hok
  obtain ⟨u, hu, hok⟩ := Except.bind_eq_ok.1 hok
  have hhost : u.host = none := by
    by_contra hne
    exact h (Uri.slash_mem_of_host (parseUri_eq_ok.1 hu) (Option.isSome_iff_ne_none.2 hne))
  rw [normalizeParsedUri, hhost] at hok
  cases u.scheme <;> simp at hok

/-! ## The proxy -/

/-- A stanza: its name, its addresses, and of its first `oauth` element the children, each a name and a
    text that may be missing. -/
structure JabberStanza (Jid : Type) where
  name : Bytes
  fromJid : Option Jid
  toJid : Option Jid
  oauth : Option (List (Bytes × Option Bytes))

/-- The elements that are looked for. -/
def oauthElements : List Bytes :=
  [ascii "oauth_token", ascii "oauth_consumer_key", ascii "oauth_signature_method",
    ascii "oauth_signature", ascii "oauth_timestamp", ascii "oauth_nonce", ascii "oauth_version"]

namespace JabberStanza

variable {Jid : Type}

/-- `oauth.first_element(param)`, as its text. -/
def element (j : JabberStanza Jid) (param : Bytes) : Option (Option Bytes) :=
  j.oauth.bind (OrderedHash.findEntry param)

/-- The text of an element as a value. -/
def textValue : Option Bytes → Value
  | some s => .str s
  | none => .nil

def parameters (j : JabberStanza Jid) : Params :=
  OrderedHash.ofList (oauthElements.filterMap
    (fun param => (j.element param).map (fun text => (param, textValue text))))

/-- `[from, to].join("&")`; a missing address has no `strip`. -/
def uri (x : JidText Jid) (j : JabberStanza Jid) : Except RubyError Bytes :=
  match j.fromJid, j.toJid with
  | some f, some t => .ok (joinWith ampersand [x.bare f, x.bare t])
  | _, _ => .error .noMethodError

theorem no_slash_of_uri {x : JidText Jid} {j : JabberStanza Jid} {s : Bytes} (h : j.uri x = .ok s) :
    slash ∉ s := by
  rw [uri] at h
  split at h
  · next f t _ _ =>
      obtain rfl := Except.ok.inj h
      intro hmem
      rcases mem_joinWith hmem with hmem | ⟨p, hp, hmem⟩
      · exact absurd hmem (by decide)
      · rcases List.mem_cons.1 hp with rfl | hp
        · exact x.slash_not_mem_bare f hmem
        · rw [List.mem_singleton.1 hp] at hmem
          exact x.slash_not_mem_bare t hmem
  · simp at h

def proxy (x : JidText Jid) (j : JabberStanza Jid) (o : SignatureOptions) : Proxy where
  method := j.name
  uri := (j.uri x).toOption.getD []
  parameters := .ok j.parameters
  normalizedUri := j.uri x
  normalizedUri_of_ok := by
    intro s hs
    refine absurd hs (normalizeUri_of_no_slash ?_ s)
    cases h : j.uri x with
    | error e => exact List.not_mem_nil
    | ok t => exact no_slash_of_uri h
  unsignedParameters := o.unsignedParameters.getD []
  consumer := o.consumer
  body := .error .noMethodError

end JabberStanza

end RubyOAuth
