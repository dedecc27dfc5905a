import Mathlib.Data.List.Induction
import QueryAccess.Proofs.Authorization.DefaultPolicy

/-!
# The history of an authorization

An authorization is made from a rule source and then changed, call by call. Any of the calls
may be refused, and the authorization is then what it was before. What it comes to in the end
depends on little of all that: on the last rule source that was accepted, the last default
policy, the last debug flag and the last custom check
(`QueryAccess.Authorization.settings`). `QueryAccess.Authorization.ofSettings` puts an
authorization together from these, with the rules of the source compiled below the root policy
of the default policy, and `QueryAccess.Authorization.foldl_after` says that every history
comes to it.

A rule source is accepted if it is not blank and can be read
(`QueryAccess.Authorization.acceptedSource?`). So blank sources, sources with a syntax error
and texts that are no default policy stand in a history without a trace, wherever they are.

The debug flag is in the state, but it has no say in who is allowed: it chooses between the
reasons of a denial and a word without reasons
(`QueryAccess.Authorization.isAllowed_setDebug`).
-/

namespace QueryAccess

namespace Authorization

/-! ### Calls -/

/-- A call that changes the settings of an authorization. -/
inductive Call where
  | setRules (text : String)
  | setPolicy (policy : DefaultPolicy)
  | setPolicyText (text : String)
  | setDebug (debug : Bool)
  | setCheck (check : Check)

/-- What a call makes of an authorization, unless it is refused. -/
def attempt (gate : Authorization) : Call → Except ConfigError Authorization
  | .setRules text => gate.setRules text
  | .setPolicy policy => .ok (gate.setPolicy policy)
  | .setPolicyText text => gate.setPolicyText text
  | .setDebug debug => .ok (gate.setDebug debug)
  | .setCheck check => .ok (gate.setCheck check)

/-- **The authorization after a call**: one that is refused has changed nothing. -/
def after (gate : Authorization) (call : Call) : Authorization :=
  match gate.attempt call with
  | .ok next => next
  | .error _ => gate

/-- **The authorization after its history**: made from a rule source, and then changed by the
calls one after the other. There is none if the first source is refused. -/
def afterCalls (first : String) (calls : List Call) : Except ConfigError Authorization :=
  (ofRules first).map fun gate => calls.foldl after gate

/-! ### What counts of a history -/

/-- The document of a rule source that is accepted: one that is neither blank nor has a
syntax error. -/
def acceptedSource? (text : String) : Option Document :=
  if Text.isBlankText text.toList then none else (Document.ofText text).toOption

namespace Call

/-- The document that a call brings. -/
def source? : Call → Option Document
  | .setRules text => acceptedSource? text
  | _ => none

/-- The default policy that a call brings, as it is or as a text that means one. -/
def policy? : Call → Option DefaultPolicy
  | .setPolicy policy => some policy
  | .setPolicyText text => DefaultPolicy.ofText? text
  | _ => none

/-- The debug flag that a call brings. -/
def debug? : Call → Option Bool
  | .setDebug debug => some debug
  | _ => none

/-- The custom check that a call brings. -/
def check? : Call → Option Check
  | .setCheck check => some check
  | _ => none

/-- The last thing of a kind that calls bring. -/
def last? {α : Type} (brings : Call → Option α) (calls : List Call) : Option α :=
  calls.reverse.findSome? brings

theorem last?_concat {α : Type} (brings : Call → Option α) (calls : List Call) (call : Call) :
    last? brings (calls ++ [call]) = (brings call).or (last? brings calls) := by
  rw [last?, List.reverse_append, List.reverse_singleton, List.singleton_append,
    List.findSome?_cons]
  cases brings call <;> rfl

end Call

end Authorization

/-- What counts of a history: the last thing of each kind. -/
structure Settings where
  source : Option Document
  defaultPolicy : DefaultPolicy
  debug : Bool
  check : Option Check

namespace Authorization

/-- **The settings that calls come to**. Before any call everyone is dropped, without
reasons. -/
def settings (calls : List Call) : Settings where
  source := Call.last? Call.source? calls
  defaultPolicy := (Call.last? Call.policy? calls).getD .drop
  debug := (Call.last? Call.debug? calls).getD false
  check := Call.last? Call.check? calls

/-- **The authorization with some settings**: its rules are those of the source, below the
root policy of the default policy. -/
def ofSettings (settings : Settings) : Authorization where
  source := settings.source
  rules := .ofSource settings.source settings.defaultPolicy
  defaultPolicy := settings.defaultPolicy
  debug := settings.debug
  check := settings.check

/-! ### One call -/

section Step

variable (gate : Authorization)

/-- A rule source that is not accepted changes nothing, whether it is blank or refused. -/
theorem after_setRules_of_none {text : String} (h : acceptedSource? text = none) :
    gate.after (.setRules text) = gate := by
  rw [acceptedSource?] at h
  rw [after, attempt, setRules]
  split at h
  · next hblank => rw [if_pos hblank]
  · next hblank =>
    rw [if_neg hblank]
    cases hread : Document.ofText text with
    | error e => rfl
    | ok document =>
      rw [hread] at h
      cases h

/-- An accepted rule source becomes the source, and the rules are compiled anew. -/
theorem after_setRules_of_some {text : String} {document : Document}
    (h : acceptedSource? text = some document) :
    gate.after (.setRules text) =
      { gate with
        source := some document
        rules := .ofDocument document gate.defaultPolicy.rootPolicy } := by
  rw [acceptedSource?] at h
  rw [after, attempt, setRules]
  split at h
  · cases h
  · next hblank =>
    rw [if_neg hblank]
    cases hread : Document.ofText text with
    | error e =>
      rw [hread] at h
      cases h
    | ok read =>
      rw [hread] at h
      cases h
      rfl

/-- A text that means no default policy changes nothing. -/
theorem after_setPolicyText_of_none {text : String} (h : DefaultPolicy.ofText? text = none) :
    gate.after (.setPolicyText text) = gate := by
  rw [after, attempt, setPolicyText, h]

/-- A text that means a default policy sets it. -/
theorem after_setPolicyText_of_some {text : String} {policy : DefaultPolicy}
    (h : DefaultPolicy.ofText? text = some policy) :
    gate.after (.setPolicyText text) = gate.setPolicy policy := by
  rw [after, attempt, setPolicyText, h]

/-- A default policy: the source that there is is compiled anew. -/
theorem setPolicy_ofSettings (settings : Settings) (policy : DefaultPolicy) :
    (ofSettings settings).setPolicy policy =
      ofSettings { settings with defaultPolicy := policy } := by
  rw [setPolicy, ofSettings, ofSettings]
  cases settings.source <;> rfl

/-- What one call more adds to the settings. -/
theorem settings_concat (calls : List Call) (call : Call) :
    settings (calls ++ [call]) =
      { source := (call.source?).or (settings calls).source
        defaultPolicy := (call.policy?).getD (settings calls).defaultPolicy
        debug := (call.debug?).getD (settings calls).debug
        check := (call.check?).or (settings calls).check } := by
  have hgetD : ∀ {α : Type} (a b : Option α) (c : α), (a.or b).getD c = a.getD (b.getD c) := by
    intro α a b c
    cases a <;> rfl
  simp only [settings, Call.last?_concat, hgetD]

/-- **One call more.** -/
theorem after_ofSettings (calls : List Call) (call : Call) :
    (ofSettings (settings calls)).after call = ofSettings (settings (calls ++ [call])) := by
  rw [settings_concat]
  cases call with
  | setRules text =>
    cases haccepted : acceptedSource? text with
    | none =>
      rw [after_setRules_of_none _ haccepted, Call.source?, haccepted]
      rfl
    | some document =>
      rw [after_setRules_of_some _ haccepted, Call.source?, haccepted]
      rfl
  | setPolicy policy => exact setPolicy_ofSettings (settings calls) policy
  | setPolicyText text =>
    cases hpolicy : DefaultPolicy.ofText? text with
    | none =>
      rw [after_setPolicyText_of_none _ hpolicy, Call.policy?, hpolicy]
      rfl
    | some policy =>
      rw [after_setPolicyText_of_some _ hpolicy, setPolicy_ofSettings, Call.policy?, hpolicy]
      rfl
  | setDebug debug => rfl
  | setCheck check => rfl

end Step

/-! ### All calls -/

/-- **Every history comes to the authorization with its settings.** -/
theorem foldl_after (calls : List Call) :
    calls.foldl after initial = ofSettings (settings calls) := by
  induction calls using List.reverseRecOn with
  | nil => rfl
  | append_singleton init last ih =>
    rw [List.foldl_append, ih]
    exact after_ofSettings init last

/-- The rule source that an authorization is made from counts as the first of its calls. -/
theorem eq_ofSettings {first : String} {calls : List Call} {gate : Authorization}
    (h : afterCalls first calls = .ok gate) :
    gate = ofSettings (settings (.setRules first :: calls)) := by
  rw [← foldl_after, List.foldl_cons]
  rw [afterCalls, ofRules] at h
  rw [after, attempt]
  cases hfirst : initial.setRules first with
  | error e =>
    rw [hfirst] at h
    cases h
  | ok start =>
    rw [hfirst] at h
    cases h
    rfl

/-! ### The debug flag -/

/-- The debug flag has no say in who is allowed. -/
theorem isAllowed_setDebug (gate : Authorization) (debug : Bool) (request : Request) :
    ((gate.setDebug debug).validateRequest request).isAllowed =
      (gate.validateRequest request).isAllowed := by
  rw [validateRequest_isAllowed, validateRequest_isAllowed]
  rfl

/-- A request that is allowed has one verdict, whatever the debug flag. -/
theorem validateRequest_of_isAllowed (gate : Authorization) {request : Request}
    (h : (gate.validateRequest request).isAllowed = true) :
    gate.validateRequest request =
      gate.rules.validate request.document request.bindings request.caller gate.defaultPolicy
        gate.check := by
  rw [validateRequest_isAllowed] at h
  rw [validateRequest, h, Bool.true_or, if_pos rfl]

/-- **Whatever the calls**, an authorization is the one with the last accepted source, the
last default policy, the last debug flag and the last custom check, and its rules are those of
that source below the root policy of that default policy. A call that is refused and a blank
rule source leave it as it is. So histories that come to the same settings give the same
verdicts; and the debug flag changes no more than the message of a denial. -/
theorem history_settles {first : String} {calls : List Call} {gate : Authorization}
    (h : afterCalls first calls = .ok gate) :
    gate = ofSettings (settings (.setRules first :: calls)) ∧
    (∀ call, (∃ e, gate.attempt call = .error e) ∨
        (∃ text, call = .setRules text ∧ Text.isBlankText text.toList = true) →
      gate.after call = gate) ∧
    (∀ (otherFirst : String) (others : List Call) (other : Authorization),
      afterCalls otherFirst others = .ok other →
      settings (.setRules otherFirst :: others) = settings (.setRules first :: calls) →
      (∀ request, other.validateRequest request = gate.validateRequest request) ∧
      ∀ query data params, other.validateWithVariables query data params =
        gate.validateWithVariables query data params) ∧
    ∀ debug request,
      ((gate.setDebug debug).validateRequest request).isAllowed =
        (gate.validateRequest request).isAllowed ∧
      ((gate.validateRequest request).isAllowed = true →
        (gate.setDebug debug).validateRequest request = gate.validateRequest request) := by
  refine ⟨eq_ofSettings h, ?_, ?_, ?_⟩
  · rintro call (⟨e, hrefused⟩ | ⟨text, rfl, hblank⟩)
    · rw [after, hrefused]
    · exact after_setRules_of_none gate (by rw [acceptedSource?, if_pos hblank])
  · intro otherFirst others other hother hsettings
    have hsame : other = gate := by
      rw [eq_ofSettings hother, hsettings, ← eq_ofSettings h]
    rw [hsame]
    exact ⟨fun _ => rfl, fun _ _ _ => rfl⟩
  · intro debug request
    have hsame := isAllowed_setDebug gate debug request
    refine ⟨hsame, fun hallowed => ?_⟩
    rw [validateRequest_of_isAllowed gate hallowed,
      validateRequest_of_isAllowed _ (hsame.trans hallowed)]
    rfl

/-- A rule source with a field. -/
def bookList : Document :=
  ⟨[.operation ⟨none, .query, none, [], [], [.field none none "books" [] [] []]⟩]⟩

/-- Calls that come to the book list with everyone accepted, most of them in vain. -/
def restlessCalls : List Call :=
  [.setRules "\x7bbooks\x7d", .setPolicyText "accept", .setRules "\x7b", .setPolicyText "sometimes",
    .setRules " ", .setDebug true]

/-- Calls that come to the same at once. -/
def plainCalls : List Call := [.setDebug true, .setPolicy .accept]

/-- A restless and a plain history that come to the same, as an instance of
`QueryAccess.Authorization.history_settles`. -/
theorem history_settles_bookList :
    ∃ gate other, afterCalls "" restlessCalls = .ok gate ∧
      afterCalls "\x7bbooks\x7d" plainCalls = .ok other ∧
      settings (.setRules "\x7bbooks\x7d" :: plainCalls) =
        settings (.setRules "" :: restlessCalls) ∧
      gate.rules = .ofDocument bookList .acceptAll ∧
      gate.after (.setRules " ") = gate ∧
      (∀ request, other.validateRequest request = gate.validateRequest request) ∧
      ∀ request, ((gate.setDebug false).validateRequest request).isAllowed =
        (gate.validateRequest request).isAllowed := by
  have hblank : Text.isBlankText "".toList = true := by decide +kernel
  have hsource : Text.isBlankText "\x7bbooks\x7d".toList ≠ true := by decide +kernel
  have hchars : "\x7bbooks\x7d".toList = ['\x7b', 'b', 'o', 'o', 'k', 's', '\x7d'] := by
    decide +kernel
  have hread : Document.ofText "\x7bbooks\x7d" = .ok bookList := by
    rw [Document.ofText, hchars]
    rfl
  have haccepted : acceptedSource? "\x7bbooks\x7d" = some bookList := by
    rw [acceptedSource?, if_neg hsource, hread]
    rfl
  have hunread : acceptedSource? "\x7b" = none := rfl
  have hempty : acceptedSource? " " = none := rfl
  have hmeant : DefaultPolicy.ofText? "accept" = some .accept := by decide +kernel
  have hunmeant : DefaultPolicy.ofText? "sometimes" = none := by decide +kernel
  have hrestless : settings (.setRules "" :: restlessCalls) =
      ⟨some bookList, .accept, true, none⟩ := by
    simp [settings, restlessCalls, Call.last?, List.findSome?, Call.source?, Call.policy?,
      Call.debug?, Call.check?, haccepted, hunread, hempty, hmeant, hunmeant]
  have hplain : settings (.setRules "\x7bbooks\x7d" :: plainCalls) =
      ⟨some bookList, .accept, true, none⟩ := by
    simp [settings, plainCalls, Call.last?, List.findSome?, Call.source?, Call.policy?,
      Call.debug?, Call.check?, haccepted]
  obtain ⟨gate, hgate⟩ : ∃ gate, afterCalls "" restlessCalls = .ok gate := by
    rw [afterCalls, ofRules, setRules, if_pos hblank, Except.map]
    exact ⟨_, rfl⟩
  obtain ⟨other, hother⟩ : ∃ other, afterCalls "\x7bbooks\x7d" plainCalls = .ok other := by
    rw [afterCalls, ofRules, setRules, if_neg hsource, hread, Except.map]
    exact ⟨_, rfl⟩
  obtain ⟨hsettled, hunchanged, hagree, hdebug⟩ := history_settles hgate
  have hsettings := hplain.trans hrestless.symm
  refine ⟨gate, other, hgate, hother, hsettings, ?_, ?_, ?_, ?_⟩
  · rw [hsettled, hrestless]
    rfl
  · exact hunchanged _ (.inr ⟨" ", rfl, by decide +kernel⟩)
  · exact (hagree _ _ _ hother hsettings).1
  · exact fun request => (hdebug false request).1

end Authorization

end QueryAccess
