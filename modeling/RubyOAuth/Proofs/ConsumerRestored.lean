import RubyOAuth.Proofs.Requests

set_option autoImplicit false

/-! # What `AccessToken#request` restores

A path that names another service sets `uri` before the request and back after it. `uri` is saved; the
connection is not, it is made again from the consumer's options. -/

namespace RubyOAuth

open Bytes

variable {rt : Runtime} {c : Consumer} {st : ConsumerState}

/-! ## What a request leaves alone -/

theorem uri_of_http (c : Consumer) (st : ConsumerState) : (c.http st).1.uri = st.uri := by
  rcases http_cases c st with ⟨conn, -, h⟩ | ⟨conn, -, -, h⟩ | ⟨e, -, -, h⟩
  all_goals rw [h]

/-- A request changes the connection at most. -/
theorem uri_of_request (rt : Runtime) (c : Consumer) (st : ConsumerState) (args : RequestArgs)
    (path : Bytes) (o : CallOptions) (x : Exchange) :
    (c.request rt st args (some path) o x).state.uri = st.uri := by
  have hopen : (openConnection c st (some path)).1.uri = st.uri := by
    rw [openConnection]
    split
    · rfl
    · split
      · rfl
      · rfl
  rw [Consumer.request]
  cases ho : openConnection c st (some path) with
  | mk st₁ r =>
      rw [ho] at hopen
      cases r with
      | error e => exact hopen
      | ok p =>
          rcases sendRequest_cases rt c st₁ args p o x with ⟨e, h⟩ | ⟨conn, u, q, -, -, -, h⟩
          · simp only [h]
            exact (uri_of_http c st₁).trans hopen
          · simp only [h]
            exact (uri_of_http c st₁).trans hopen

theorem uri_of_eq_some {u : Uri} (h : st.uri = some u) : c.uri st = (st, .ok u) := by
  rw [Consumer.uri, h]

/-- What `uri` answers is what it leaves, and the connection stays as it is. -/
theorem uri_eq_ok {st' : ConsumerState} {u : Uri} (h : c.uri st = (st', .ok u)) :
    st'.uri = some u ∧ st'.http = st.http := by
  rw [Consumer.uri] at h
  split at h
  · next v hv =>
      obtain ⟨rfl, hu⟩ := Prod.mk.inj h
      exact ⟨hv.trans (congrArg some (Except.ok.inj hu)), rfl⟩
  · split at h
    · obtain ⟨rfl, hu⟩ := Prod.mk.inj h
      exact ⟨congrArg some (Except.ok.inj hu), rfl⟩
    · simp at h

/-! ## Restoring -/

/-- The path is absolute and differs from the consumer's `uri`. -/
def NamesOtherService (c : Consumer) (st : ConsumerState) (path : Bytes) : Prop :=
  ∃ u ∈ (parseUri path).toOption, ∃ site ∈ (c.uri st).2.toOption,
    u.scheme.isSome = true ∧ sameUri u site = false

instance (c : Consumer) (st : ConsumerState) (path : Bytes) :
    Decidable (NamesOtherService c st path) := by
  unfold NamesOtherService; infer_instance

/-- After the call `uri` answers as before it, and so does `http` where it was changed for the call. -/
def RestoresConsumer (rt : Runtime) (c : Consumer) (st : ConsumerState) (args : RequestArgs)
    (path : Bytes) (x : Exchange) : Prop :=
  (c.uri (accessTokenRequest rt c st args path x).state).2 = (c.uri st).2 ∧
    (NamesOtherService c st path →
      (c.http (accessTokenRequest rt c st args path x).state).2 = (c.http st).2)

/-- The connection is not made yet, or it is the one that `create_http` makes for the consumer, or that
    one cannot be made. -/
def OwnConnection (c : Consumer) (st : ConsumerState) : Prop :=
  ∀ conn ∈ st.http, ∀ built ∈ (createHttp c none).toOption, conn = built

theorem namesOtherService_iff {u site : Uri} {st' : ConsumerState} {path : Bytes}
    (hu : parseUri path = .ok u) (hsite : c.uri st = (st', .ok site)) :
    NamesOtherService c st path ↔ (u.scheme.isSome && !sameUri u site) = true := by
  simp [NamesOtherService, hu, hsite, Except.toOption]

/-- **`AccessToken#request` restores the consumer exactly where the connection is the consumer's own**:
    `uri` always comes back, and a connection that was assigned or left by an earlier request is replaced
    by a new one to the site. -/
theorem restoresConsumer_iff (rt : Runtime) (c : Consumer) (st : ConsumerState) (args : RequestArgs)
    (path : Bytes) (x : Exchange) :
    RestoresConsumer rt c st args path x ↔ (NamesOtherService c st path → OwnConnection c st) := by
  rw [RestoresConsumer]
  rcases accessTokenRequest_cases rt c st args path x with
    ⟨e, hraise, heq⟩ | ⟨u, st', site, hu, hsite, hcase⟩
  · -- raised before anything is touched
    have hno : ¬ NamesOtherService c st path := by
      rintro ⟨u, hu, site, hsite, -⟩
      rcases hraise with h | h
      · simp [h, Except.toOption] at hu
      · simp [h, Except.toOption] at hsite
    rw [heq]
    simp [hno]
  · obtain ⟨huri', hhttp'⟩ := uri_eq_ok hsite
    have hbefore : (c.uri st).2 = .ok site := by rw [hsite]
    have hother := namesOtherService_iff hu hsite
    rcases hcase with ⟨hsame, heq⟩ | ⟨hdiff, e, hc, heq⟩ | ⟨hdiff, conn, hc, heq⟩
    · have hno : ¬ NamesOtherService c st path := by
        rw [hother, hsame]
        exact Bool.false_ne_true
      have hafter : (c.request rt st' args (some path) {} x).state.uri = some site :=
        (uri_of_request rt c st' args path {} x).trans huri'
      rw [heq, uri_of_eq_some hafter, hbefore]
      simp [hno]
    · -- no connection can be made: nothing is sent, and the connection stays
      have hown : OwnConnection c st := by
        intro conn _ built hbuilt
        simp [hc, Except.toOption] at hbuilt
      have hhttp : (c.http { st' with uri := some site }).2 = (c.http st).2 := by
        rw [Consumer.http, Consumer.http, hhttp']
        cases st.http with
        | some conn => rfl
        | none => simp only [hc]
      rw [heq, hbefore, uri_of_eq_some (u := site) rfl]
      simp [hhttp, hown]
    · have hyes : NamesOtherService c st path := hother.2 hdiff
      have hhttp : (c.http ⟨some conn, some site⟩).2 = (c.http st).2 ↔ OwnConnection c st := by
        rw [Consumer.http, Consumer.http, OwnConnection]
        cases st.http with
        | some old => simp [hc, Except.toOption, eq_comm]
        | none => simp [hc]
      rw [heq, hbefore, uri_of_eq_some (u := site) rfl]
      simp [hyes, hhttp]

/-- A consumer whose connection was assigned. -/
def otherConnection : Connection := ⟨some (ascii "other.test"), 8080, false, none, by decide⟩

/-- Its connection is gone after a call of another service. -/
theorem exampleConsumer_not_restored :
    ¬ RestoresConsumer echoRuntime exampleConsumer ⟨some otherConnection, none⟩ postArgs
      (ascii "http://third.test/x") (answer "") := by
  have hother : NamesOtherService exampleConsumer ⟨some otherConnection, none⟩
      (ascii "http://third.test/x") := by decide +kernel
  have hhttp : (exampleConsumer.http (accessTokenRequest echoRuntime exampleConsumer
      ⟨some otherConnection, none⟩ postArgs (ascii "http://third.test/x") (answer "")).state).2
      = .ok exampleConnection := by decide +kernel
  rintro ⟨-, hrestored⟩
  have hsame := (hrestored hother).symm.trans hhttp
  exact absurd hsame (by decide)

end RubyOAuth
