import RichardTest.Rpc

namespace RichardTest.Rpc

variable {φ σ κ : Type}

-- Where a service is exported, every interface can be referred to, with any host that is named.
theorem referChecks_of_exportChecks {service : Option (Service φ σ)} {exported : Service φ σ} {port : Int}
    (h : exportChecks service port = .ok exported) (c : Class) (host : String) :
    service = some exported ∧
      (referChecks (some c) (some host) port = .ok (c, host) ↔ c.isInterface = true ∧ host.length ≠ 0) := by
  cases service with
  | none => cases h
  | some service =>
      rw [exportChecks] at h
      split at h
      · cases h
      · rename_i hport
        cases h
        refine ⟨rfl, ?_⟩
        rw [referChecks]
        by_cases hc : c.isInterface = true
        · by_cases hhost : host.length = 0
          · simp [hc, hhost]
          · simp [hc, hhost, hport]
        · simp [hc]

theorem castToString_ok_iff (o : Obj) :
    (∃ value, castToString o = .ok value) ↔ o = .null ∨ ∃ s, o = .string s := by
  cases o <;> simp [castToString]

-- What the line of the server needs so that the result is sent at all.
def Prints (arguments : Option (List Obj)) (result : Obj) : Prop :=
  (∃ a rest, arguments = some (a :: rest) ∧ (a = .null ∨ ∃ s, a = .string s)) ∧
    (result = .null ∨ ∃ s, result = .string s)

theorem printed_ok_iff (arguments : Option (List Obj)) (result : Obj) :
    (∃ line, printed arguments result = .ok line) ↔ Prints arguments result := by
  rw [Prints, ← castToString_ok_iff result]
  match arguments with
  | none => exact ⟨nofun, fun ⟨⟨_, _, h, _⟩, _⟩ => nomatch h⟩
  | some [] => exact ⟨nofun, fun ⟨⟨_, _, h, _⟩, _⟩ => nomatch h⟩
  | some (a :: rest) =>
      have ha : (∃ b rest', some (a :: rest) = some (b :: rest') ∧ (b = .null ∨ ∃ s, b = .string s)) ↔
          ∃ value, castToString a = .ok value := by
        rw [castToString_ok_iff]
        constructor
        · rintro ⟨b, rest', h, hb⟩
          cases h
          exact hb
        · exact fun hb => ⟨a, rest, rfl, hb⟩
      rw [ha]
      cases hname : castToString a with
      | error t => simp [printed, firstArgument, hname, bind, Except.bind]
      | ok name =>
          cases hvalue : castToString result with
          | error t => simp [printed, firstArgument, hname, hvalue, bind, Except.bind]
          | ok value => simp [printed, firstArgument, hname, hvalue, bind, Except.bind, pure, Except.pure]

theorem invocationTarget_ne (t : Throwable) : Throwable.invocationTargetException t ≠ t := fun h => by
  have hsize := congrArg sizeOf h
  simp at hsize

theorem undeclared_ne (t : Throwable) :
    Throwable.undeclaredThrowableException (.invocationTargetException t) ≠ t := fun h => by
  have hsize := congrArg sizeOf h
  simp at hsize
  omega

theorem proxied_invocationTarget_ne (method : Method φ σ) (t : Throwable) :
    proxied method (.invocationTargetException t) ≠ t := by
  rw [proxied]
  split
  · exact undeclared_ne t
  · exact invocationTarget_ne t

-- An object that prints is no exception, so that the caller gets it as it is.
theorem outcome_of_prints (method : Method φ σ) {arguments : Option (List Obj)} {result : Obj}
    (h : Prints arguments result) : outcome method result = .ok result := by
  obtain ⟨-, rfl | ⟨s, rfl⟩⟩ := h
  · rfl
  · rfl

-- The caller sees what the method has returned just where that prints.
theorem outcome_answer_eq_iff (method : Method φ σ) (arguments : Option (List Obj))
    (result : Except Throwable Obj) :
    outcome method (answer arguments result) = result ↔ ∃ value, result = .ok value ∧ Prints arguments value := by
  cases result with
  | error t =>
      constructor
      · intro h
        have ht : proxied method (.invocationTargetException t) = t := Except.error.inj h
        exact absurd ht (proxied_invocationTarget_ne method t)
      · rintro ⟨value, hvalue, -⟩
        cases hvalue
  | ok value =>
      rw [answer]
      cases hprinted : printed arguments value with
      | error t =>
          constructor
          · intro h
            cases h
          · rintro ⟨value', hvalue, hprints⟩
            cases hvalue
            obtain ⟨line, hline⟩ := (printed_ok_iff arguments value).mpr hprints
            rw [hprinted] at hline
            cases hline
      | ok line =>
          have hprints := (printed_ok_iff arguments value).mp ⟨line, hprinted⟩
          exact iff_of_true (outcome_of_prints method hprints) ⟨value, rfl, hprints⟩

section Calls

variable {service : Service φ σ}

theorem code_enter_eq_none_iff {request : κ → Request} (k : κ) :
    (code service request).enter k = none ↔ methodOf service request k = none := Option.map_eq_none_iff

-- Remote calls in any order of their steps, and threads that call the service itself: the one is the other, on
-- the same states. The caller sees what the method has returned in its thread exactly when that is a string or
-- null, for a first argument that is a string or null. A thread has ended when the caller has its answer.
theorem calls_as_threads [DecidableEq κ] (request : κ → Request) {exporting : Option (Service φ σ)} {port : Int}
    (hexport : exportChecks exporting port = .ok service) (s : σ) :
    (∀ (c : Class) (host : String),
      referChecks (some c) (some host) port = .ok (c, host) ↔ c.isInterface = true ∧ host.length ≠ 0) ∧
    (∀ events S, (server service request).run (.start s) events = some S →
      ∃ T, (code service request).run (.start s) (events.flatMap (server service request).acts) = some T ∧
        T.state = S.state ∧
        (∀ k method reply, methodOf service request k = some method → S.place k = .received reply →
          ∃ result, T.phase k = .returned result ∧
            (outcome method reply = result ↔
              ∃ value, result = .ok value ∧ Prints (request k).arguments value)) ∧
        ∀ past future j k, events = past ++ .call k :: future → .receive j ∈ past →
          ∃ T', (code service request).run (.start s) (past.flatMap (server service request).acts) = some T' ∧
            T'.phase k = .idle ∧
              ((∃ result, T'.phase j = .returned result) ∨ methodOf service request j = none)) ∧
    ∀ acts T, (code service request).run (.start s) acts = some T →
      ∃ events S, (server service request).run (.start s) events = some S ∧
        events.flatMap (server service request).acts = acts ∧ S.state = T.state := by
  refine ⟨fun c host => (referChecks_of_exportChecks hexport c host).2, fun events S hrun => ?_,
    fun acts T hrun => ?_⟩
  · obtain ⟨T, hT, hsim⟩ := RemoteCall.Server.simulates_run s events S hrun
    refine ⟨T, hT, hsim.state, fun k method reply hmethod hreply => ?_, fun past future j k hevents hj => ?_⟩
    · rcases (hreply ▸ hsim.matches_place k).of_received with ⟨result, hresult, rfl⟩ | ⟨henter, -⟩
      · exact ⟨result, hresult, outcome_answer_eq_iff method (request k).arguments result⟩
      · rw [(code_enter_eq_none_iff k).mp henter] at hmethod
        cases hmethod
    · obtain ⟨T', hT', hidle, hended⟩ := RemoteCall.Server.returned_of_receive (hevents ▸ hrun) hj
      exact ⟨T', hT', hidle, hended.imp_right (code_enter_eq_none_iff j).mp⟩
  · have hrun' : (server service request).toCode.run (.start s) acts = some T := hrun
    obtain ⟨events, hevents, hacts⟩ := RemoteCall.Server.exists_run s acts T hrun'
    exact ⟨events, _, hevents, hacts, rfl⟩

-- Two clients of `HelloServiceImpl` on port 1234: the second one comes in after the first request is sent, and
-- its thread overtakes the other one.
def helloRequest (k : Bool) : Request := ⟨"hello", ["java.lang.String"], some [.string (if k then "b" else "a")]⟩

def twoClients : List (RemoteCall.Event Bool) :=
  [.call false, .call true, .accept false, .accept true, .turn true, .receive true, .turn false]

theorem calls_as_threads_twoClients :
    ∃ (S : RemoteCall.System Bool (List Obj) Unit Obj) (T : RemoteCall.Threads Bool (List Obj) Unit _),
      (server helloServiceImpl helloRequest).run (.start ()) twoClients = some S ∧
        (code helloServiceImpl helloRequest).run (.start ()) [.call false, .call true, .turn true, .turn false] =
          some T ∧
        S.place true = .received (.string "Hello b") ∧
        ∃ result, T.phase true = .returned result ∧
          outcome (hello : Method (List Obj) Unit) (.string "Hello b") = result := by
  have hexport : exportChecks (some (helloServiceImpl : Service (List Obj) Unit)) 1234 = .ok helloServiceImpl := rfl
  obtain ⟨T, hT, -, hreply, -⟩ := (calls_as_threads helloRequest hexport ()).2.1 twoClients _ rfl
  obtain ⟨result, hresult, houtcome⟩ := hreply true hello _ rfl rfl
  refine ⟨_, T, rfl, hT, rfl, result, hresult, houtcome.mpr ⟨.string "Hello b", ?_, ?_⟩⟩
  · cases hT
    exact (RemoteCall.Phase.returned.inj hresult).symm
  · exact ⟨⟨_, [], rfl, .inr ⟨"b", rfl⟩⟩, .inr ⟨"Hello b", rfl⟩⟩

end Calls

end RichardTest.Rpc
