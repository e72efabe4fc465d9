import RubyOAuth.Model.JabberRequest
import RubyOAuth.Proofs.BaseString
import RubyOAuth.Proofs.ClientParameters
import RubyOAuth.Proofs.SignedPairs

set_option autoImplicit false

/-! # What is signed of a stanza

Six elements, the name of the stanza and its two bare addresses make the base string, and nothing else of
the stanza does: neither the resources of the addresses nor anything outside the `oauth` element. -/

namespace RubyOAuth

open Bytes

namespace JabberStanza

variable {Jid : Type} {rt : Runtime}

/-- A parameter is the text of an element that is looked for. -/
theorem lookup_parameters (j : JabberStanza Jid) (n : Bytes) :
    j.parameters.lookup n = if n ∈ oauthElements then (j.element n).map textValue else none := by
  have hnames : ∀ ns : List Bytes, ns.Nodup → OrderedHash.findEntry n (ns.filterMap
      (fun param => (j.element param).map (fun text => (param, textValue text))))
        = if n ∈ ns then (j.element n).map textValue else none := by
    intro ns hns
    induction ns with
    | nil => rfl
    | cons m rest ih =>
        rw [List.nodup_cons] at hns
        have hrest := ih hns.2
        rw [List.filterMap_cons]
        by_cases hm : m = n
        · subst hm
          cases hj : j.element m with
          | none =>
              simp only [Option.map_none]
              rw [hrest, if_neg hns.1, if_pos List.mem_cons_self]
          | some text =>
              simp only [Option.map_some]
              rw [OrderedHash.findEntry, if_pos rfl, if_pos List.mem_cons_self]
        · have hmem : n ∈ m :: rest ↔ n ∈ rest := by
            rw [List.mem_cons, or_iff_right (fun h => hm h.symm)]
          simp only [hmem]
          rw [← hrest]
          cases hj : j.element m with
          | none => rfl
          | some text =>
              simp only [Option.map_some]
              rw [OrderedHash.findEntry, if_neg hm]
  have hkeys : (oauthElements.filterMap (fun param => (j.element param).map
      (fun text => (param, textValue text)))).map Prod.fst
        = oauthElements.filter (fun param => (j.element param).isSome) := by
    rw [List.map_filterMap, ← List.filterMap_eq_filter]
    refine List.filterMap_congr fun param _ => ?_
    cases hj : j.element param <;> simp [Option.guard, hj]
  have hnodup : oauthElements.Nodup := by decide
  rw [parameters, OrderedHash.lookup_ofList_of_nodup (hkeys ▸ hnodup.filter _), hnames _ hnodup]

theorem flat_parameters (j : JabberStanza Jid) : Flat j.parameters := by
  rintro ⟨n, v⟩ he
  have hv := OrderedHash.mem_entries.1 he
  rw [lookup_parameters] at hv
  split at hv
  · obtain ⟨text, -, rfl⟩ := Option.map_eq_some_iff.1 hv
    cases text <;> rfl
  · simp at hv

/-- The text that is signed of an element, where it is there. -/
def signedText (j : JabberStanza Jid) (n : Bytes) : Option Bytes := (j.element n).map (·.getD [])

theorem valuesOf_parameters (j : JabberStanza Jid) (n : Bytes) :
    valuesOf n (flatPairs j.parameters.entries)
      = if n ∈ oauthElements then (j.signedText n).toList else [] := by
  rw [valuesOf_flatPairs_lookup, lookup_parameters, signedText]
  split
  · cases j.element n with
    | none => rfl
    | some text => cases text <;> rfl
  · rfl

/-- **Two stanzas have one base string exactly where name, bare addresses and the signed elements are the
    same**, whatever else is in them. -/
theorem signatureBaseString_stanza_iff (rt : Runtime) (x : JidText Jid) (j k : JabberStanza Jid)
    (o : SignatureOptions)
    {jf jt kf kt : Jid} (hjf : j.fromJid = some jf) (hjt : j.toJid = some jt)
    (hkf : k.fromJid = some kf) (hkt : k.toJid = some kt) :
    (j.proxy x o).signatureBaseString rt = (k.proxy x o).signatureBaseString rt ↔
      j.name = k.name ∧ x.bare jf = x.bare kf ∧ x.bare jt = x.bare kt ∧
        ∀ n ∈ oauthElements, n ∉ o.unsignedParameters.getD [] → n ≠ ascii "oauth_signature" →
          j.signedText n = k.signedText n := by
  have hbase : ∀ (s : JabberStanza Jid) (f t : Jid), s.fromJid = some f → s.toJid = some t →
      (s.proxy x o).signatureBaseString rt = .ok (joinWith ampersand ([s.name,
        joinWith ampersand [x.bare f, x.bare t], normalForm (flatPairs
          (s.parameters.select (s.proxy x o).isSigned).entries)].map escapeBytes)) := by
    intro s f t hf ht
    refine signatureBaseString_eq ?_ ?_
    · show s.uri x = _
      rw [uri, hf, ht]
    · rw [Proxy.normalizedParameters, Proxy.parametersForSignature,
        show (s.proxy x o).parameters = .ok s.parameters from rfl, Except.ok_bind, Except.ok_bind,
        normalize_flat (flat_select s.flat_parameters _)]
  have hsigned : ∀ (s : JabberStanza Jid) (n : Bytes), (s.proxy x o).isSigned n = true ↔
      n ∉ o.unsignedParameters.getD [] ∧ n ≠ ascii "oauth_signature" := by
    intro s n
    have hnames : (s.proxy x o).signatureAndUnsignedParameters
        = o.unsignedParameters.getD [] ++ [ascii "oauth_signature"] := rfl
    rw [Proxy.isSigned, hnames, Bool.not_eq_true', List.contains_eq_mem, decide_eq_false_iff_not,
      List.mem_append, List.mem_singleton, not_or]
  have hsame : (k.proxy x o).isSigned = (j.proxy x o).isSigned := rfl
  have haddresses : joinWith ampersand [x.bare jf, x.bare jt] = joinWith ampersand [x.bare kf, x.bare kt] ↔
      x.bare jf = x.bare kf ∧ x.bare jt = x.bare kt := by
    have hplain : ∀ f t : Jid, ∀ s ∈ [x.bare f, x.bare t], ampersand ∉ s := by
      intro f t s hs
      rcases List.mem_cons.1 hs with rfl | hs
      · exact x.ampersand_not_mem_bare f
      · rw [List.mem_singleton.1 hs]
        exact x.ampersand_not_mem_bare t
    rw [joinWith_inj_of_ne (hplain jf jt) (hplain kf kt) (by simp) (by simp)]
    simp
  rw [hbase j jf jt hjf hjt, hbase k kf kt hkf hkt, Except.ok.injEq, baseString_inj, haddresses, hsame,
    normalForm_select_eq_iff, and_assoc]
  refine and_congr_right fun _ => and_congr_right fun _ => and_congr_right fun _ => ?_
  simp only [valuesOf_parameters, hsigned]
  constructor
  · intro h n hn hu hs
    have hperm := h n ⟨hu, hs⟩
    rw [if_pos hn, if_pos hn] at hperm
    cases hj : j.signedText n with
    | none =>
        rw [hj] at hperm
        exact (Option.toList_eq_nil_iff.1 hperm.nil_eq.symm).symm
    | some s =>
        rw [hj] at hperm
        have hk := List.singleton_perm.1 hperm
        exact (Option.toList_eq_singleton_iff.1 hk.symm).symm
  · rintro h n ⟨hu, hs⟩
    split
    · next hn => rw [h n hn hu hs]
    · exact .refl _

/-- An address in its parts, the text before the resource without slash and ampersand. -/
structure ExampleJid where
  node : Option Bytes
  domain : Bytes
  resource : Option Bytes
  plain : ∀ b ∈ node.getD [] ++ domain, b ≠ slash ∧ b ≠ ampersand

/-- `node@domain`. -/
def ExampleJid.bare (j : ExampleJid) : Bytes :=
  match j.node with
  | some node => node ++ at' :: j.domain
  | none => j.domain

theorem ExampleJid.not_mem_bare (j : ExampleJid) : slash ∉ j.bare ∧ ampersand ∉ j.bare := by
  obtain ⟨node, domain, resource, plain⟩ := j
  have hat : at' ≠ slash ∧ at' ≠ ampersand := by decide
  have hclass : ∀ b ∈ bare ⟨node, domain, resource, plain⟩, b ≠ slash ∧ b ≠ ampersand := by
    intro b hb
    cases node with
    | none => exact plain b hb
    | some n =>
        rcases List.mem_append.1 hb with hb | hb
        · exact plain b (List.mem_append_left _ hb)
        · rcases List.mem_cons.1 hb with rfl | hb
          · exact hat
          · exact plain b (List.mem_append_right _ hb)
  exact ⟨fun h => (hclass _ h).1 rfl, fun h => (hclass _ h).2 rfl⟩

def exampleJidText : JidText ExampleJid where
  bare := ExampleJid.bare
  slash_not_mem_bare := fun j => j.not_mem_bare.1
  ampersand_not_mem_bare := fun j => j.not_mem_bare.2

/-- An address at `example.com`. -/
def exampleJid (resource : Option Bytes) : ExampleJid where
  node := some (ascii "alice")
  domain := ascii "example.com"
  resource := resource
  plain := by decide +kernel

/-- A stanza with a token and an element that is not looked for. -/
def exampleStanza (resource : Option Bytes) (extra : Bytes) : JabberStanza ExampleJid where
  name := ascii "message"
  fromJid := some (exampleJid resource)
  toJid := some (exampleJid none)
  oauth := some [(ascii "oauth_token", some (ascii "t")), (ascii "note", some extra)]

theorem exampleStanza_signatureBaseString :
    ((exampleStanza none []).proxy exampleJidText {}).signatureBaseString echoRuntime
        = ((exampleStanza (some (ascii "home")) (ascii "x")).proxy exampleJidText {}).signatureBaseString
          echoRuntime ↔
      (exampleStanza none []).name = (exampleStanza (some (ascii "home")) (ascii "x")).name ∧
        exampleJidText.bare (exampleJid none) = exampleJidText.bare (exampleJid (some (ascii "home"))) ∧
        exampleJidText.bare (exampleJid none) = exampleJidText.bare (exampleJid none) ∧
        ∀ n ∈ oauthElements, n ∉ (none : Option (List Bytes)).getD [] → n ≠ ascii "oauth_signature" →
          (exampleStanza none []).signedText n
            = (exampleStanza (some (ascii "home")) (ascii "x")).signedText n :=
  signatureBaseString_stanza_iff echoRuntime exampleJidText (exampleStanza none [])
    (exampleStanza (some (ascii "home")) (ascii "x")) {} rfl rfl rfl rfl

end JabberStanza

end RubyOAuth
