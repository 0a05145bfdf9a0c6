import Zveltio.UrlValidator
import Mathlib.Data.Bool.AllAny
namespace Zveltio.SafeFetch
open IpText (Text)
open UrlValidator (lower withoutBrackets normalizeHost fourDotted isBlockedHost)

inductive Scheme where
  | http
  | https
  | other (name : Text)
  deriving DecidableEq

-- A URL as the standard's parser gives it; there is no port where it is the scheme's own.
structure Url where
  scheme : Scheme
  hostname : Text
  port : Option Nat
  behind : Text
  deriving DecidableEq

def Url.web (url : Url) : Bool := url.scheme = .http || url.scheme = .https

-- Of a URL that is neither http nor https the origin is never asked to any effect: the next hop refuses it.
def Url.origin (url : Url) : Scheme × Text × Option Nat := (url.scheme,url.hostname,url.port)

def Url.host (url : Url) : Text :=
  match url.port with
  | none => url.hostname
  | some port => url.hostname ++ ':' :: IpText.decimal port

-- The parser of URLs and the forms of an address, as the runtime has them: what a URL shows is read back,
-- and a hostname set to an address is that address.
structure Platform (α : Type u) where
  parse : Text → Option Url
  join : Text → Url → Option Url
  href : Url → Text
  withHostname : Url → Text → Url
  spelled : α → Text
  isIP : Text → Option α
  parse_href : ∀ location base next, join location base = some next → parse (href next) = some next
  isIP_pinned : ∀ url address, isIP (withoutBrackets (withHostname url (if ':' ∈ spelled address then '[' :: (spelled address ++ [']']) else spelled address)).hostname) =
    some address

structure Options where
  allowUrl : Option (Url → Bool)
  pinThroughProxy : Bool
  proxyEnvironment : Bool

abbrev Headers := List (Text × Text)

def Headers.delete (headers : Headers) (name : Text) : Headers := headers.filter fun header => lower header.1 ≠ name

def Headers.set (headers : Headers) (name value : Text) : Headers := headers.delete name ++ [(name,value)]

-- What a body is read from: bytes that stay, or a stream that is read once.
inductive Body (β : Type v) where
  | source (content : β)
  | stream (content : β) (used : Bool)

def Body.content : Body β → β
  | .source content => content
  | .stream content _ => content

-- Fetch reads it, or at least locks it.
def Body.spent : Body β → Body β
  | .source content => .source content
  | .stream content _ => .stream content true

inductive Mode where
  | follow
  | error
  | manual
  deriving DecidableEq

-- none is a member that is not there; a body that is there may be null.
structure Init (β : Type v) where
  method : Option Text
  headers : Option Headers
  body : Option (Option (Body β))
  redirect : Option Mode
  proxy : Bool
  serverName : Option Text

structure Request (β : Type v) where
  url : Text
  method : Text
  headers : Headers
  body : Option (Body β)
  redirect : Mode

inductive Input (β : Type v) where
  | url (text : Text)
  | request (request : Request β)

def Input.text : Input β → Text
  | .url text => text
  | .request asked => asked.url

-- The getter of a Request's body gives a stream, whatever the body was made of.
def Body.getter : Body β → Body β
  | .source content => .stream content false
  | .stream content used => .stream content used

def baseInit : Input β → Init β → Init β
  | .url _,init => init
  | .request asked,init => {init with
    method := init.method <|> some asked.method
    headers := init.headers <|> some asked.headers
    body := init.body <|> some (asked.body.map Body.getter)}

structure Call (β : Type v) where
  input : Input β
  init : Init β
  hops : Nat

def Input.mode : Input β → Mode
  | .url _ => .follow
  | .request asked => asked.redirect

def Call.base (call : Call β) : Init β := baseInit call.input call.init

structure Response where
  status : Nat
  location : Option Text

-- What one hop finds: the answers of the name lookup and the answer of the server, none where it fails.
structure World (α : Type u) where
  lookup : Text → Option (List α)
  answer : Option Response

-- What a hop goes by besides its request; mode is the one its redirect is held to.
structure Trail where
  url : Text
  mode : Mode
  hops : Nat
  proxied : Bool

def Trail.next (trail : Trail) (url : Text) : Trail := {trail with url := url, hops := trail.hops + 1}

inductive Failure where
  | url
  | allow
  | blocked
  | tooMany
  | unresolved
  | fetch
  | redirectError
  | noLocation
  deriving DecidableEq

section
variable {α : Type u} {β : Type v} (platform : Platform α) (options : Options)

-- any IPv6 form, or dotted decimals once normalized
def isIpLiteral (host : Text) : Bool := ':' ∈ host || fourDotted (normalizeHost host)

def assertPublicUrl (world : World α) (text : Text) : Except Failure (Option α) :=
  match platform.parse text with
  | none => .error .url
  | some url =>
    if url.web = false then .error .url
    else if isBlockedHost (lower url.hostname) then .error .blocked
    else if isIpLiteral (withoutBrackets (lower url.hostname)) then .ok none
    else match world.lookup (withoutBrackets (lower url.hostname)) with
      | none => .ok none
      | some addresses =>
        if addresses.any fun address => isBlockedHost (platform.spelled address) then .error .blocked else .ok addresses.head?

def proxyConfigured (init : Init β) : Bool := init.proxy || options.proxyEnvironment

def proxied (init : Init β) : Bool := !options.pinThroughProxy && proxyConfigured options init

def pinnedRequest (url : Url) (init : Init β) (address : Option α) : Url × Init β :=
  match address with
  | none => (url,init)
  | some address =>
    if proxied options init then (url,init)
    else (platform.withHostname url (if ':' ∈ platform.spelled address then '[' :: (platform.spelled address ++ [']']) else platform.spelled address),
      {init with
        headers := some (Headers.set (init.headers.getD []) ['h','o','s','t'] url.host)
        serverName := if url.scheme = .https then some url.hostname else init.serverName})

def GET : Text := ['G','E','T']
def HEAD : Text := ['H','E','A','D']
def POST : Text := ['P','O','S','T']

def NORMALIZED : List Text := [['D','E','L','E','T','E'],GET,HEAD,['O','P','T','I','O','N','S'],POST,['P','U','T']]

def FORBIDDEN : List Text := [['C','O','N','N','E','C','T'],['T','R','A','C','E'],['T','R','A','C','K']]

def upper (text : Text) : Text := text.map Char.toUpper

local instance lawfulText : LawfulBEq Text := inferInstance

def normalize (method : Text) : Text := if upper method ∈ NORMALIZED then upper method else method

def tokenChar (char : Char) : Bool :=
  char.isAlphanum || char ∈ ['!','#','$','%','&','\'','*','+','-','.','^','_',Char.ofNat 96,'|','~']

def opened (init : Init β) : Option (Text × Option (Body β)) :=
  let method := init.method.getD GET
  if method = [] ∨ method.any (fun char => !tokenChar char) ∨ upper method ∈ FORBIDDEN then none
  else match init.body.join with
    | none => some (normalize method,none)
    | some (.stream _ true) => none
    | some body => if normalize method = GET ∨ normalize method = HEAD then none else some (normalize method,some body)

def REDIRECT_STATUSES : List Nat := [301,302,303,307,308]

def rewritten (status : Nat) (method : Text) : Bool :=
  ((status = 301 || status = 302) && method = POST) || (status = 303 && method ≠ GET && method ≠ HEAD)

def BODY_HEADERS : List Text :=
  ["content-type","content-length","content-encoding","content-language","content-location"].map String.toList

def CREDENTIALS : List Text := ["authorization","cookie","proxy-authorization"].map String.toList

def redirectInit (init : Init β) (status : Nat) (crossOrigin : Bool) : Init β :=
  let changed := rewritten status (upper (init.method.getD GET))
  let kept := if changed then BODY_HEADERS.foldl Headers.delete (init.headers.getD []) else init.headers.getD []
  {init with
    headers := some (if crossOrigin then CREDENTIALS.foldl Headers.delete kept else kept)
    method := if changed then some GET else init.method
    body := if changed then some none else init.body}

def Init.spent (init : Init β) : Init β := {init with body := init.body.map (Option.map Body.spent)}

def Call.trail (call : Call β) : Trail :=
  ⟨call.input.text,call.init.redirect.getD call.input.mode,call.hops,proxied options call.base⟩

-- allowUrl, assertPublicUrl, the bound on the hops and the name that did not resolve, in this order.
def admitted (world : World α) (trail : Trail) : Except Failure (Url × Option α) :=
  match platform.parse trail.url with
  | none => .error .url
  | some url =>
    if options.allowUrl.any fun allows => !allows url then .error .allow
    else match assertPublicUrl platform world trail.url with
      | .error failure => .error failure
      | .ok address =>
        if 5 < trail.hops then .error .tooMany
        else if address.isNone && (platform.isIP (withoutBrackets url.hostname)).isNone && !trail.proxied then .error .unresolved
        else .ok (url,address)

inductive Turn (γ : Type w) where
  | threw (failure : Failure)
  | returned (response : Response) (seen : Option (Url × Bool))
  | follow (next : γ)

def Turn.map (f : γ → δ) : Turn γ → Turn δ
  | .threw failure => .threw failure
  | .returned response seen => .returned response seen
  | .follow next => .follow (f next)

def turn (world : World α) (trail : Trail) (url : Url) : Turn (Nat × Url) :=
  match world.answer with
  | none => .threw .fetch
  | some response =>
    if response.status ∈ REDIRECT_STATUSES then
      match trail.mode with
      | .manual => .returned response none
      | .error => .threw .redirectError
      | .follow => match response.location.filter fun location => location ≠ [] with
        | none => .threw .noLocation
        | some location => match platform.join location url with
          | none => .threw .url
          | some next => .follow (response.status,next)
    else .returned response (some (url,0 < trail.hops))

-- One request on the wire: connection is the address it goes to, none where fetch looks the name up again.
structure Sent (α : Type u) (β : Type v) where
  url : Url
  connection : Option α
  method : Text
  headers : Headers
  body : Option (Body β)
  serverName : Option Text

def Call.again (call : Call β) (url : Url) (status : Nat) (next : Url) : Call β :=
  ⟨.url (platform.href next),redirectInit call.base.spent status (next.origin ≠ url.origin),call.hops + 1⟩

def Call.target (call : Call β) (url : Url) (address : Option α) : Url × Init β :=
  pinnedRequest platform options url {call.base with redirect := some .manual} address

def Call.sent (call : Call β) (url : Url) (address : Option α) (taken : Text × Option (Body β)) : Sent α β :=
  let target := call.target platform options url address
  ⟨url,platform.isIP (withoutBrackets target.1.hostname),taken.1,target.2.headers.getD [],taken.2,target.2.serverName⟩

def safeFetch (world : World α) (call : Call β) : Option (Sent α β) × Turn (Call β) :=
  match admitted platform options world (call.trail options) with
  | .error failure => (none,.threw failure)
  | .ok (url,address) =>
    match opened (call.target platform options url address).2 with
    | none => (none,.threw .fetch)
    | some taken => (some (call.sent platform options url address taken),
        (turn platform world (call.trail options) url).map fun followed => call.again platform url followed.1 followed.2)

-- The requests of one call, as long as its redirects lead on; the worlds are what its hops find, one after the other.
def sends (call : Call β) : List (World α) → List (World α × Sent α β)
  | [] => []
  | world::worlds => match safeFetch platform options world call with
    | (none,_) => []
    | (some sent,.follow next) => (world,sent)::sends next worlds
    | (some sent,_) => [(world,sent)]

-- What the Fetch standard keeps of a request: its body with whether there is a source to read it from again.
structure Fetched (β : Type v) where
  method : Text
  body : Option (β × Bool)

def Fetched.redirected (request : Fetched β) (status : Nat) : Option (Fetched β) :=
  if status ≠ 303 && request.body.any (fun body => !body.2) then none
  else if rewritten status request.method then some ⟨GET,none⟩
  else some request

def prescribed (trail : Trail) (request : Fetched β) : List (World α) → List (Fetched β)
  | [] => []
  | world::worlds => match admitted platform options world trail with
    | .error _ => []
    | .ok (url,_) => request::match turn platform world trail url with
      | .follow followed => match request.redirected followed.1 with
        | none => []
        | some again => prescribed (trail.next (platform.href followed.2)) again worlds
      | _ => []

def Body.readable : Body β → Bool
  | .source _ => true
  | .stream _ _ => false

def Call.given (call : Call β) : Option (Body β) :=
  (call.init.body <|> match call.input with
    | .url _ => none
    | .request asked => some asked.body).join

def Call.fetched (call : Call β) : Option (Fetched β) :=
  (opened call.base).map fun taken => ⟨taken.1,call.given.map fun body => (body.content,body.readable)⟩

def prescribes (call : Call β) (worlds : List (World α)) : List (Fetched β) :=
  call.fetched.elim [] fun request => prescribed platform options (call.trail options) request worlds

def Sent.shown (sent : Sent α β) : Text × Option β := (sent.method,sent.body.map Body.content)

def Fetched.shown (request : Fetched β) : Text × Option β := (request.method,request.body.map Prod.fst)

theorem normalize_named (name : Text) (listed : name ∈ NORMALIZED) (method : Text) : upper method = name ↔ normalize method = name := by
  have plain : ∀ known ∈ NORMALIZED, upper known = known := List.all_iff_forall_prop.mp (by decide)
  unfold normalize
  split
  · exact Iff.rfl
  · next strange =>
    constructor
    · intro same
      exact absurd (same ▸ listed) strange
    · rintro rfl
      exact absurd ((plain method listed).symm ▸ listed) strange

theorem rewritten_normalize (status : Nat) (method : Text) : rewritten status (upper method) = rewritten status (normalize method) := by
  unfold rewritten
  simp only [normalize_named POST (by decide) method,normalize_named GET (by decide) method,normalize_named HEAD (by decide) method,ne_eq]

structure Taken (init : Init β) (method : Text) (body : Option (Body β)) : Prop where
  plain : ¬(init.method.getD GET = [] ∨ (init.method.getD GET).any (fun char => !tokenChar char) ∨ upper (init.method.getD GET) ∈ FORBIDDEN)
  named : method = normalize (init.method.getD GET)
  handed : init.body.join = body
  fresh : ∀ content, body ≠ some (.stream content true)
  carried : body = none ∨ (method ≠ GET ∧ method ≠ HEAD)

theorem opened_taken {init : Init β} : opened init = some (method,body) ↔ Taken init method body := by
  unfold opened
  dsimp only
  constructor
  · intro taken
    split at taken
    · cases taken
    · next plain =>
      split at taken
      · next none_handed =>
        cases taken
        exact ⟨plain,rfl,none_handed,fun _ same => (nomatch same),.inl rfl⟩
      · cases taken
      · next given fresh handed =>
        split at taken
        · cases taken
        · next named =>
          cases taken
          refine ⟨plain,rfl,handed,fun content same => ?_,.inr (not_or.mp named)⟩
          exact fresh content (Option.some.inj same)
  · rintro ⟨plain,rfl,handed,fresh,carried⟩
    rw [if_neg plain,handed]
    cases body with
    | none => rfl
    | some body =>
      have named : ¬(normalize (init.method.getD GET) = GET ∨ normalize (init.method.getD GET) = HEAD) :=
        not_or.mpr (carried.resolve_left fun absent => nomatch absent)
      cases body with
      | source content => exact if_neg named
      | stream content used =>
        cases used with
        | true => exact absurd rfl (fresh content)
        | false => exact if_neg named

theorem taken_get {init : Init β} (method : init.method = some GET) (body : init.body = some none) : Taken init GET none :=
  ⟨by rw [method]; decide,by rw [method]; decide,by rw [body]; rfl,fun _ same => (nomatch same),.inl rfl⟩

theorem redirect_rewrites (changed : rewritten status (normalize (init.method.getD GET)) = true) (cross : Bool) :
    Taken (redirectInit init status cross) GET none := by
  rw [← rewritten_normalize] at changed
  refine taken_get ?_ ?_
  · simp only [redirectInit,changed,if_true]
  · simp only [redirectInit,changed,if_true]

theorem redirect_keeps (same : rewritten status (normalize (init.method.getD GET)) = false) (cross : Bool) :
    (redirectInit init status cross).method = init.method ∧ (redirectInit init status cross).body = init.body := by
  rw [← rewritten_normalize] at same
  simp only [redirectInit,same,Bool.false_eq_true,if_false,and_self]

theorem taken_congr {init other : Init β} (method : other.method = init.method) (body : other.body = init.body) :
    opened other = opened init := by
  unfold opened
  rw [method,body]

theorem pinned_opened (url : Url) (init : Init β) (address : Option α) :
    opened (pinnedRequest platform options url init address).2 = opened init := by
  cases address with
  | none => rfl
  | some address =>
    unfold pinnedRequest
    dsimp only
    split
    · rfl
    · exact taken_congr rfl rfl

-- The request of a later hop against the standard's: no stream is left to be read.
def Carried (init : Init β) (request : Fetched β) : Prop :=
  ∃ body : Option β, Taken init request.method (body.map .source) ∧ request.body = body.map fun content => (content,true)

theorem carried_next {init : Init β} {request : Fetched β} (carried : Carried init request) (status : Nat) (cross : Bool) :
    ∃ again, request.redirected status = some again ∧ Carried (redirectInit init.spent status cross) again := by
  obtain ⟨body,taken,same⟩ := carried
  have read_again : (status ≠ 303 && request.body.any (fun body => !body.2)) = false := by
    rw [same]
    cases body with
    | none => exact Bool.and_false _
    | some content => exact Bool.and_false _
  have method : init.spent.method = init.method := rfl
  unfold Fetched.redirected
  rw [read_again,if_neg Bool.false_ne_true]
  cases changed : rewritten status request.method with
  | true =>
    rw [taken.named,← method] at changed
    exact ⟨⟨GET,none⟩,rfl,none,redirect_rewrites changed cross,rfl⟩
  | false =>
    refine ⟨request,rfl,body,?_,same⟩
    have still := changed
    rw [taken.named,← method] at still
    obtain ⟨named,held⟩ := redirect_keeps still cross
    have handed : init.spent.body.join = body.map .source := by
      have here := taken.handed
      unfold Init.spent
      cases whole : init.body with
      | none =>
        rw [whole] at here
        exact here
      | some given =>
        rw [whole] at here
        cases body with
        | none => cases given with
          | none => rfl
          | some given => cases here
        | some content => cases given with
          | none => cases here
          | some given =>
            cases here
            rfl
    refine ⟨?_,?_,?_,taken.fresh,taken.carried⟩
    · rw [named]
      exact taken.plain
    · rw [named]
      exact taken.named
    · rw [held]
      exact handed

variable {platform options}

theorem target_opened (call : Call β) (url : Url) (address : Option α) :
    opened (call.target platform options url address).2 = opened call.base :=
  (pinned_opened platform options url _ address).trans (taken_congr rfl rfl)

theorem sends_refused {call : Call β} {world : World α} (refused : ∀ found, admitted platform options world (call.trail options) ≠ .ok found)
    (worlds : List (World α)) : sends platform options call (world::worlds) = [] := by
  unfold sends safeFetch
  cases found : admitted platform options world (call.trail options) with
  | error failure => rfl
  | ok found' => exact absurd found (refused found')

theorem sends_unopened {call : Call β} (unopened : opened call.base = none) (worlds : List (World α)) : sends platform options call worlds = [] := by
  cases worlds with
  | nil => rfl
  | cons world worlds =>
    unfold sends safeFetch
    cases admitted platform options world (call.trail options) with
    | error failure => rfl
    | ok found =>
      dsimp only
      rw [target_opened,unopened]

def onward (platform : Platform α) (options : Options) (call : Call β) (url : Url) (worlds : List (World α)) :
    Turn (Nat × Url) → List (World α × Sent α β)
  | .follow followed => sends platform options (call.again platform url followed.1 followed.2) worlds
  | _ => []

theorem sends_sent {call : Call β} {world : World α} (found : admitted platform options world (call.trail options) = .ok (url,address))
    (taken : opened call.base = some here) (worlds : List (World α)) :
    sends platform options call (world::worlds) =
      (world,call.sent platform options url address here)::onward platform options call url worlds (turn platform world (call.trail options) url) := by
  rw [sends,safeFetch,found]
  dsimp only
  rw [target_opened,taken]
  cases turn platform world (call.trail options) url <;> rfl

theorem sends_cons (call : Call β) (world : World α) (worlds : List (World α)) :
    sends platform options call (world::worlds) = [] ∨ ∃ url address here, admitted platform options world (call.trail options) = .ok (url,address) ∧
      opened call.base = some here ∧ sends platform options call (world::worlds) =
        (world,call.sent platform options url address here)::onward platform options call url worlds (turn platform world (call.trail options) url) := by
  cases taken : opened call.base with
  | none => exact .inl (sends_unopened taken _)
  | some here =>
    cases found : admitted platform options world (call.trail options) with
    | error failure => exact .inl (sends_refused (fun _ other => by rw [found] at other; cases other) worlds)
    | ok pair => exact .inr ⟨pair.1,pair.2,here,rfl,rfl,sends_sent found taken worlds⟩

theorem sends_all (holds : World α × Sent α β → Prop) (good : Call β → Prop)
    (sent : ∀ call world url address here, good call → admitted platform options world (call.trail options) = .ok (url,address) →
      opened call.base = some here → holds (world,call.sent platform options url address here))
    (kept : ∀ call url status next, good call → good (call.again platform url status next)) (call : Call β) (begun : good call)
    (worlds : List (World α)) : ∀ each ∈ sends platform options call worlds, holds each := by
  induction worlds generalizing call with
  | nil => exact fun _ listed => absurd listed List.not_mem_nil
  | cons world worlds ih =>
    intro each listed
    obtain none_sent | ⟨url,address,here,found,taken,all⟩ := sends_cons call world worlds
    · rw [none_sent] at listed
      exact absurd listed List.not_mem_nil
    · rw [all] at listed
      rcases List.mem_cons.mp listed with rfl | later
      · exact sent call world url address here begun found taken
      · cases led : turn platform world (call.trail options) url with
        | follow followed =>
          rw [led] at later
          exact ih _ (kept call _ _ _ begun) each later
        | threw failure =>
          rw [led] at later
          exact absurd later List.not_mem_nil
        | returned response seen =>
          rw [led] at later
          exact absurd later List.not_mem_nil

-- The address is one the check saw for this hostname, all of them open, or the one the hostname spells out.
def Approved (platform : Platform α) (world : World α) (url : Url) (address : α) : Prop :=
  isBlockedHost (lower url.hostname) = false ∧
    ((∃ addresses, world.lookup (withoutBrackets (lower url.hostname)) = some addresses ∧ address ∈ addresses ∧
      ∀ other ∈ addresses, isBlockedHost (platform.spelled other) = false) ∨ platform.isIP (withoutBrackets url.hostname) = some address)

structure Admission (platform : Platform α) (options : Options) (world : World α) (trail : Trail) (url : Url) (address : Option α) : Prop where
  parsed : platform.parse trail.url = some url
  allowed : ∀ allows, options.allowUrl = some allows → allows url = true
  asserted : assertPublicUrl platform world trail.url = .ok address
  few : trail.hops ≤ 5
  resolved : address = none → trail.proxied = false → ∃ literal, platform.isIP (withoutBrackets url.hostname) = some literal

theorem admitted_admission {world : World α} {trail : Trail} (found : admitted platform options world trail = .ok (url,address)) :
    Admission platform options world trail url address := by
  unfold admitted at found
  cases parsed : platform.parse trail.url with
  | none =>
    rw [parsed] at found
    cases found
  | some read =>
    rw [parsed] at found
    dsimp only at found
    split at found
    · cases found
    · next allowed =>
      cases asserted : assertPublicUrl platform world trail.url with
      | error failure =>
        rw [asserted] at found
        cases found
      | ok pinned =>
        rw [asserted] at found
        dsimp only at found
        split at found
        · cases found
        · next few =>
          split at found
          · cases found
          · next resolved =>
            cases found
            refine ⟨parsed,fun allows given => ?_,asserted,Nat.le_of_not_lt few,fun unpinned direct => ?_⟩
            · rw [given] at allowed
              simpa using allowed
            · rw [unpinned,direct] at resolved
              simpa [Option.isSome_iff_exists,Option.ne_none_iff_isSome] using resolved

theorem assert_public {world : World α} {text : Text} (parsed : platform.parse text = some url) (asserted : assertPublicUrl platform world text = .ok pinned) :
    url.web = true ∧ isBlockedHost (lower url.hostname) = false ∧ ∀ address, pinned = some address →
      ∃ addresses, world.lookup (withoutBrackets (lower url.hostname)) = some addresses ∧ address ∈ addresses ∧
        ∀ other ∈ addresses, isBlockedHost (platform.spelled other) = false := by
  unfold assertPublicUrl at asserted
  rw [parsed] at asserted
  dsimp only at asserted
  split at asserted
  · cases asserted
  · next web =>
    have served : url.web = true := by simpa using web
    split at asserted
    · cases asserted
    · next open_ =>
      have unblocked : isBlockedHost (lower url.hostname) = false := by simpa using open_
      refine ⟨served,unblocked,?_⟩
      split at asserted
      · cases asserted
        exact fun _ same => (nomatch same)
      · cases looked : world.lookup (withoutBrackets (lower url.hostname)) with
        | none =>
          rw [looked] at asserted
          cases asserted
          exact fun _ same => (nomatch same)
        | some addresses =>
          rw [looked] at asserted
          dsimp only at asserted
          split at asserted
          · cases asserted
          · next all =>
            cases asserted
            intro address first
            refine ⟨addresses,rfl,List.mem_of_head? first,fun other listed => ?_⟩
            have each := List.any_eq_false.mp (Bool.not_eq_true _ ▸ all) other listed
            simpa using each

theorem base_proxy (call : Call β) : call.base.proxy = call.init.proxy := by
  unfold Call.base
  cases call.input <;> rfl

theorem connection_approved {call : Call β} {world : World α} (direct : proxyConfigured options call.init = false)
    (found : admitted platform options world (call.trail options) = .ok (url,address)) (here : Text × Option (Body β)) :
    (∃ reached, (call.sent platform options url address here).connection = some reached ∧ Approved platform world url reached) ∧
      ∀ allows, options.allowUrl = some allows → allows url = true := by
  have admission := admitted_admission found
  obtain ⟨web,unblocked,pinned⟩ := assert_public admission.parsed admission.asserted
  have unproxied : ∀ init : Init β, init.proxy = call.init.proxy → proxied options init = false := by
    intro init same
    unfold proxied
    have : proxyConfigured options init = false := by
      unfold proxyConfigured at direct ⊢
      rw [same]
      exact direct
    rw [this,Bool.and_false]
  refine ⟨?_,admission.allowed⟩
  cases address with
  | none =>
    obtain ⟨literal,spelled⟩ := admission.resolved rfl (unproxied call.base (base_proxy call))
    exact ⟨literal,spelled,unblocked,.inr spelled⟩
  | some address =>
    refine ⟨address,?_,unblocked,.inl (pinned address rfl)⟩
    have not_proxied := unproxied {call.base with redirect := some .manual} (base_proxy call)
    unfold Call.sent Call.target pinnedRequest
    dsimp only
    rw [not_proxied,if_neg Bool.false_ne_true]
    exact platform.isIP_pinned url address

def Headers.bare (headers : Headers) : Prop := ∀ header ∈ headers, lower header.1 ∉ CREDENTIALS

theorem deleted_mem {names : List Text} {headers : Headers} (listed : header ∈ names.foldl Headers.delete headers) :
    header ∈ headers ∧ lower header.1 ∉ names := by
  induction names generalizing headers with
  | nil => exact ⟨listed,List.not_mem_nil⟩
  | cons name names ih =>
    obtain ⟨inside,others⟩ := ih listed
    obtain ⟨held,apart⟩ := List.mem_filter.mp inside
    refine ⟨held,fun wrong => ?_⟩
    rcases List.mem_cons.mp wrong with same | later
    · exact of_decide_eq_true apart same
    · exact others later

theorem redirect_bare {init : Init β} (bare : Headers.bare (init.headers.getD []) ∨ cross = true) :
    Headers.bare ((redirectInit init status cross).headers.getD []) := by
  unfold redirectInit
  simp only [Option.getD_some]
  intro header listed
  cases cross with
  | true =>
    rw [if_pos rfl] at listed
    exact (deleted_mem listed).2
  | false =>
    rw [if_neg Bool.false_ne_true] at listed
    have kept := bare.resolve_right Bool.false_ne_true
    split at listed
    · exact kept header (deleted_mem listed).1
    · exact kept header listed

theorem host_bare : lower ['h','o','s','t'] ∉ CREDENTIALS := by decide

theorem target_bare {call : Call β} (bare : Headers.bare (call.base.headers.getD [])) (url : Url) (address : Option α) (taken : Text × Option (Body β)) :
    (call.sent platform options url address taken).headers.bare := by
  unfold Call.sent Call.target pinnedRequest
  cases address with
  | none => exact bare
  | some address =>
    dsimp only
    split
    · exact bare
    · intro header listed
      rcases List.mem_append.mp listed with held | set_
      · exact bare header (List.mem_filter.mp held).1
      · rw [List.mem_singleton.mp set_]
        exact host_bare

theorem again_bare {call : Call β} {url next : Url} (bare : Headers.bare (call.base.headers.getD []) ∨ next.origin ≠ url.origin) (status : Nat) :
    Headers.bare ((call.again platform url status next).base.headers.getD []) :=
  redirect_bare (bare.imp_right fun apart => decide_eq_true apart)

theorem sends_bare {call : Call β} (bare : Headers.bare (call.base.headers.getD [])) (worlds : List (World α)) :
    ∀ each ∈ sends platform options call worlds, each.2.headers.bare :=
  sends_all (fun each => each.2.headers.bare) (fun call => Headers.bare (call.base.headers.getD []))
    (fun _ _ url address taken begun _ _ => target_bare begun url address taken)
    (fun _ _ status _ begun => again_bare (.inl begun) status) call bare worlds

def Crossed (list : List (World α × Sent α β)) : Prop :=
  ∀ front one two rest, list = front ++ one::two::rest → one.2.url.origin ≠ two.2.url.origin → ∀ each ∈ two::rest, each.2.headers.bare

theorem sends_head {call : Call β} {worlds : List (World α)} {rest : List (World α × Sent α β)} (parsed : platform.parse call.input.text = some next)
    (led : sends platform options call worlds = two::rest) : two.2.url = next := by
  cases worlds with
  | nil => cases led
  | cons world worlds =>
    obtain none_sent | ⟨url,address,here,found,_,all⟩ := sends_cons call world worlds
    · rw [none_sent] at led
      cases led
    · rw [all] at led
      have read := (admitted_admission found).parsed
      cases (List.cons.inj led).1
      exact Option.some.inj (read.symm.trans parsed)

theorem turn_joined {world : World α} {trail : Trail} {url : Url} (led : turn platform world trail url = .follow followed) :
    trail.mode = .follow ∧ ∃ location, platform.join location url = some followed.2 := by
  unfold turn at led
  split at led
  · cases led
  · split at led
    · split at led
      · cases led
      · cases led
      · next mode =>
        refine ⟨mode,?_⟩
        split at led
        · cases led
        · split at led
          · cases led
          · next next joined =>
            cases led
            exact ⟨_,joined⟩
    · cases led

theorem sends_crossed (call : Call β) (worlds : List (World α)) : Crossed (sends platform options call worlds) := by
  induction worlds generalizing call with
  | nil =>
    intro front one two rest same
    exact absurd same.symm (List.append_ne_nil_of_right_ne_nil front (List.cons_ne_nil _ _))
  | cons world worlds ih =>
    intro front one two rest same apart
    obtain none_sent | ⟨url,address,here,found,taken,all⟩ := sends_cons call world worlds
    · rw [none_sent] at same
      exact absurd same.symm (List.append_ne_nil_of_right_ne_nil front (List.cons_ne_nil _ _))
    · rw [all] at same
      cases led : turn platform world (call.trail options) url with
      | follow followed =>
        rw [led] at same
        cases front with
        | nil =>
          obtain ⟨first,later⟩ := List.cons.inj same
          obtain ⟨_,location,joined⟩ := turn_joined led
          have second := sends_head (platform.parse_href location url followed.2 joined) later
          rw [← first,second] at apart
          have clean : Headers.bare ((call.again platform url followed.1 followed.2).base.headers.getD []) :=
            again_bare (.inr (Ne.symm apart)) followed.1
          have bare := @sends_bare _ _ platform options _ clean worlds
          rwa [show sends platform options _ worlds = two::rest from later] at bare
        | cons _ front => exact ih _ front one two rest (List.cons.inj same).2 apart
      | threw failure =>
        rw [led] at same
        cases front with
        | nil => cases (List.cons.inj same).2
        | cons _ front => exact absurd (List.cons.inj same).2.symm (List.append_ne_nil_of_right_ne_nil front (List.cons_ne_nil _ _))
      | returned response seen =>
        rw [led] at same
        cases front with
        | nil => cases (List.cons.inj same).2
        | cons _ front => exact absurd (List.cons.inj same).2.symm (List.append_ne_nil_of_right_ne_nil front (List.cons_ne_nil _ _))

theorem sends_few (call : Call β) (worlds : List (World α)) : (sends platform options call worlds).length ≤ 6 - call.hops := by
  induction worlds generalizing call with
  | nil => exact Nat.zero_le _
  | cons world worlds ih =>
    obtain none_sent | ⟨url,address,here,found,_,all⟩ := sends_cons call world worlds
    · rw [none_sent]
      exact Nat.zero_le _
    · have few : call.hops ≤ 5 := (admitted_admission found).few
      have later : (onward platform options call url worlds (turn platform world (call.trail options) url)).length ≤ 5 - call.hops := by
        cases turn platform world (call.trail options) url with
        | follow followed => exact (ih _).trans (by simp only [Call.again]; omega)
        | threw failure => exact Nat.zero_le _
        | returned response seen => exact Nat.zero_le _
      rw [all,List.length_cons]
      omega

-- The later hops do as the standard does: the URL checks are the same, and the request is carried on.
theorem again_trail (call : Call β) {world : World α} {url : Url} (led : turn platform world (call.trail options) url = .follow followed) :
    (call.again platform url followed.1 followed.2).trail options = (call.trail options).next (platform.href followed.2) := by
  have follow := (turn_joined led).1
  have mode : call.init.redirect.getD .follow = (call.trail options).mode := by
    have same : (call.trail options).mode = call.init.redirect.getD call.input.mode := rfl
    rw [same] at follow ⊢
    cases given : call.init.redirect with
    | none =>
      rw [given] at follow
      exact follow.symm
    | some mode => rfl
  have carried : (call.again platform url followed.1 followed.2).init.redirect = call.init.redirect := by
    unfold Call.again Call.base
    cases call.input <;> rfl
  have proxy : proxied options (call.again platform url followed.1 followed.2).base = proxied options call.base := rfl
  unfold Call.trail Trail.next
  rw [carried,proxy]
  exact congrArg (fun mode => (⟨_,mode,_,_⟩ : Trail)) mode

theorem prescribed_refused {trail : Trail} {world : World α} (refused : ∀ found, admitted platform options world trail ≠ .ok found)
    (request : Fetched β) (worlds : List (World α)) : prescribed platform options trail request (world::worlds) = [] := by
  rw [prescribed]
  cases found : admitted platform options world trail with
  | error failure => rfl
  | ok found' => exact absurd found (refused found')

def prescribedOn (platform : Platform α) (options : Options) (trail : Trail) (request : Fetched β) (worlds : List (World α)) :
    Turn (Nat × Url) → List (Fetched β)
  | .follow followed => (request.redirected followed.1).elim [] fun again =>
      prescribed platform options (trail.next (platform.href followed.2)) again worlds
  | _ => []

theorem prescribed_sent {trail : Trail} {world : World α} (found : admitted platform options world trail = .ok (url,address))
    (request : Fetched β) (worlds : List (World α)) : prescribed platform options trail request (world::worlds) =
      request::prescribedOn platform options trail request worlds (turn platform world trail url) := by
  rw [prescribed,found]
  dsimp only
  cases turn platform world trail url with
  | follow followed =>
    refine congrArg (request::·) ?_
    dsimp only [prescribedOn]
    cases request.redirected followed.1 <;> rfl
  | threw failure => rfl
  | returned response seen => rfl

theorem carried_sends {call : Call β} {request : Fetched β} (carried : Carried call.base request) (worlds : List (World α)) :
    (sends platform options call worlds).map (fun each => each.2.shown) =
      (prescribed platform options (call.trail options) request worlds).map Fetched.shown := by
  induction worlds generalizing call request with
  | nil => rfl
  | cons world worlds ih =>
    obtain ⟨body,taken,same⟩ := carried
    have opens := opened_taken.mpr taken
    cases found : admitted platform options world (call.trail options) with
    | error failure =>
      rw [sends_refused (fun _ other => by rw [found] at other; cases other),
        prescribed_refused (fun _ other => by rw [found] at other; cases other)]
      rfl
    | ok pair =>
      have shown : (call.sent platform options pair.1 pair.2 (request.method,body.map .source)).shown = request.shown := by
        unfold Sent.shown Fetched.shown
        rw [same]
        cases body <;> rfl
      rw [sends_sent found opens,prescribed_sent found,List.map_cons,List.map_cons]
      refine congr (congrArg List.cons shown) ?_
      cases led : turn platform world (call.trail options) pair.1 with
      | follow followed =>
        obtain ⟨again,redirected,later⟩ := carried_next ⟨body,taken,same⟩ followed.1 (followed.2.origin ≠ pair.1.origin)
        dsimp only [onward,prescribedOn]
        rw [redirected,Option.elim_some,← again_trail call led]
        exact ih later
      | threw failure => rfl
      | returned response seen => rfl

theorem prescribed_nil {trail : Trail} (request : Fetched β) (worlds : List (World α)) :
    (prescribed platform options trail request worlds).map Fetched.shown = [] ↔
      ¬∃ second rest found, worlds = second::rest ∧ admitted platform options second trail = .ok found := by
  rw [List.map_eq_nil_iff]
  cases worlds with
  | nil => exact ⟨fun _ ⟨_,_,_,same,_⟩ => (nomatch same),fun _ => rfl⟩
  | cons second rest =>
    cases found : admitted platform options second trail with
    | error failure =>
      refine ⟨fun _ ⟨_,_,_,same,other⟩ => ?_,fun _ => prescribed_refused (fun _ other => by rw [found] at other; cases other) request rest⟩
      cases same
      rw [found] at other
      cases other
    | ok pair =>
      rw [prescribed_sent found]
      exact ⟨fun wrong => (nomatch wrong),fun wrong => absurd ⟨second,rest,pair,rfl,found⟩ wrong⟩

-- A stream is handed over where the standard reads its source again, or gives up at a source it has not.
def Lost (platform : Platform α) (options : Options) (call : Call β) (worlds : List (World α)) : Prop :=
  ∃ first rest found followed request content,
    worlds = first::rest ∧ admitted platform options first (call.trail options) = .ok found ∧
    turn platform first (call.trail options) found.1 = .follow followed ∧ call.fetched = some request ∧
    call.base.body.join = some (.stream content false) ∧ followed.1 ≠ 303 ∧
    request.body = some (content,!rewritten followed.1 request.method) ∧
    ∃ second later next, rest = second::later ∧ admitted platform options second ((call.trail options).next (platform.href followed.2)) = .ok next

theorem given_base (call : Call β) : call.base.body.join = call.given ∨ call.base.body.join = call.given.map Body.getter := by
  unfold Call.base Call.given
  cases call.input with
  | url text =>
    refine .inl ?_
    cases given : call.init.body <;> simp [baseInit,given]
  | request asked =>
    cases given : call.init.body with
    | some body => exact .inl (by simp [baseInit,given])
    | none => exact .inr (by simp [baseInit,given])

theorem given_stream {call : Call β} (handed : call.base.body.join = some (.stream content used)) :
    ∃ given, call.given = some given ∧ given.content = content := by
  rcases given_base call with same | same
  · exact ⟨_,same.symm.trans handed,rfl⟩
  · rw [same] at handed
    obtain ⟨given,here,read⟩ := Option.map_eq_some_iff.mp handed
    refine ⟨given,here,?_⟩
    cases given <;> cases read <;> rfl

theorem given_source {call : Call β} (handed : call.base.body.join = some (.source content)) : call.given = some (.source content) := by
  rcases given_base call with same | same
  · exact same.symm.trans handed
  · rw [same] at handed
    obtain ⟨given,_,read⟩ := Option.map_eq_some_iff.mp handed
    cases given <;> cases read

theorem given_none {call : Call β} (handed : call.base.body.join = none) : call.given = none := by
  rcases given_base call with same | same
  · exact same.symm.trans handed
  · rw [same] at handed
    exact Option.map_eq_none_iff.mp handed

theorem stream_spent {call : Call β} (handed : call.base.body.join = some (.stream content false))
    (same : rewritten status (normalize (call.base.spent.method.getD GET)) = false) (url next : Url) (worlds : List (World α)) :
    sends platform options (call.again platform url status next) worlds = [] := by
  refine sends_unopened ?_ worlds
  have kept : (call.again platform url status next).base.body.join = some (.stream content true) := by
    have held := (redirect_keeps same (next.origin ≠ url.origin)).2
    show (redirectInit call.base.spent status (next.origin ≠ url.origin)).body.join = _
    rw [held]
    unfold Init.spent
    cases given : call.base.body with
    | none =>
      rw [given] at handed
      cases handed
    | some body =>
      rw [given] at handed
      cases body with
      | none => cases handed
      | some body =>
        cases handed
        rfl
  cases taken : opened (call.again platform url status next).base with
  | none => rfl
  | some here => exact absurd ((opened_taken.mp taken).handed.symm.trans kept) ((opened_taken.mp taken).fresh content)

theorem rewritten_body {init : Init β} (taken : Taken init method (some body)) : rewritten 303 method = true := by
  have apart := taken.carried.resolve_left fun absent => nomatch absent
  simp [rewritten,apart]

theorem redirected_body {request : Fetched β} {readable : Bool} (body : request.body = some (content,readable)) (status : Nat) :
    request.redirected status = if status ≠ 303 ∧ readable = false then none
      else if rewritten status request.method then some ⟨GET,none⟩ else some request := by
  unfold Fetched.redirected
  rw [body]
  cases readable <;> simp

theorem stream_tails {call : Call β} {request : Fetched β} {readable : Bool} (taken : Taken call.base request.method (some (.stream content false)))
    (body : request.body = some (content,readable)) {first : World α} {url : Url}
    (led : turn platform first (call.trail options) url = .follow followed) (rest : List (World α)) :
    (sends platform options (call.again platform url followed.1 followed.2) rest).map (fun each => each.2.shown) =
        (prescribedOn platform options (call.trail options) request rest (.follow followed)).map Fetched.shown ↔
      (followed.1 ≠ 303 → readable = !rewritten followed.1 request.method →
        ¬∃ second later next, rest = second::later ∧ admitted platform options second ((call.trail options).next (platform.href followed.2)) = .ok next) := by
  have method : normalize (call.base.spent.method.getD GET) = request.method := taken.named.symm
  dsimp only [prescribedOn]
  rw [redirected_body body]
  cases changed : rewritten followed.1 request.method with
  | true =>
    have got : Carried (call.again platform url followed.1 followed.2).base ⟨GET,none⟩ :=
      ⟨none,redirect_rewrites (by rw [method]; exact changed) _,rfl⟩
    rw [carried_sends got,again_trail call led,Bool.not_true]
    by_cases torn : followed.1 ≠ 303 ∧ readable = false
    · rw [if_pos torn,Option.elim_none,List.map_nil,prescribed_nil]
      exact ⟨fun stopped _ _ => stopped,fun stopped => stopped torn.1 torn.2⟩
    · rw [if_neg torn,if_pos rfl,Option.elim_some]
      exact ⟨fun _ elsewhere same => absurd ⟨elsewhere,same⟩ torn,fun _ => rfl⟩
  | false =>
    have see_other : followed.1 ≠ 303 := by
      intro same
      rw [same,rewritten_body taken] at changed
      cases changed
    rw [stream_spent taken.handed (by rw [method]; exact changed),if_neg Bool.false_ne_true,Bool.not_false,List.map_nil]
    cases readable with
    | false =>
      rw [if_pos ⟨see_other,rfl⟩]
      exact ⟨fun _ _ wrong => absurd wrong Bool.false_ne_true,fun _ => rfl⟩
    | true =>
      rw [if_neg (fun torn => absurd torn.2.symm Bool.false_ne_true),Option.elim_some,eq_comm,prescribed_nil]
      exact ⟨fun stopped _ _ => stopped,fun stopped => stopped see_other rfl⟩

theorem shown_exact (call : Call β) (worlds : List (World α)) :
    (sends platform options call worlds).map (fun each => each.2.shown) = (prescribes platform options call worlds).map Fetched.shown ↔
      ¬Lost platform options call worlds := by
  unfold prescribes
  cases opens : opened call.base with
  | none =>
    have unfetched : call.fetched = none := by
      unfold Call.fetched
      rw [opens]
      rfl
    rw [sends_unopened opens,unfetched]
    exact ⟨fun _ ⟨_,_,_,_,_,_,_,_,_,fetched,_⟩ => (by rw [unfetched] at fetched; cases fetched),fun _ => rfl⟩
  | some here =>
    obtain ⟨method,body⟩ := here
    have taken := opened_taken.mp opens
    have fetched : call.fetched = some ⟨method,call.given.map fun body => (body.content,body.readable)⟩ := by
      unfold Call.fetched
      rw [opens]
      rfl
    rw [fetched,Option.elim_some]
    have plain (carried : Carried call.base ⟨method,call.given.map fun body => (body.content,body.readable)⟩)
        (no_stream : ∀ content, body ≠ some (.stream content false)) :
        ((sends platform options call worlds).map (fun each => each.2.shown) =
          (prescribed platform options (call.trail options) ⟨method,call.given.map fun body => (body.content,body.readable)⟩ worlds).map Fetched.shown ↔
            ¬Lost platform options call worlds) := by
      refine ⟨fun _ ⟨_,_,_,_,_,content,_,_,_,_,handed,_⟩ => ?_,fun _ => carried_sends carried worlds⟩
      exact no_stream content (taken.handed.symm.trans handed)
    cases body with
    | none =>
      refine plain ⟨none,taken,?_⟩ fun _ wrong => (nomatch wrong)
      rw [given_none taken.handed]
      rfl
    | some body =>
      cases body with
      | source content =>
        refine plain ⟨some content,taken,?_⟩ fun _ wrong => (nomatch wrong)
        rw [given_source taken.handed]
        rfl
      | stream content used =>
        cases used with
        | true => exact absurd rfl (taken.fresh content)
        | false =>
          obtain ⟨given,found_given,same⟩ := given_stream taken.handed
          have body : call.given.map (fun body => (body.content,body.readable)) = some (content,given.readable) := by
            rw [found_given,Option.map_some,same]
          cases worlds with
          | nil => exact ⟨fun _ ⟨_,_,_,_,_,_,none_left,_⟩ => (nomatch none_left),fun _ => rfl⟩
          | cons first rest =>
            cases found : admitted platform options first (call.trail options) with
            | error failure =>
              rw [sends_refused (fun _ other => by rw [found] at other; cases other),
                prescribed_refused (fun _ other => by rw [found] at other; cases other)]
              refine ⟨fun _ ⟨_,_,_,_,_,_,cut,other,_⟩ => ?_,fun _ => rfl⟩
              cases cut
              rw [found] at other
              cases other
            | ok pair =>
              rw [sends_sent found opens,prescribed_sent found,List.map_cons,List.map_cons]
              have head : (call.sent platform options pair.1 pair.2 (method,some (.stream content false))).shown =
                  Fetched.shown ⟨method,call.given.map fun body => (body.content,body.readable)⟩ := by
                unfold Sent.shown Fetched.shown
                rw [body]
                rfl
              rw [List.cons_eq_cons,and_iff_right head]
              cases led : turn platform first (call.trail options) pair.1 with
              | threw failure =>
                refine ⟨fun _ ⟨_,_,_,_,_,_,cut,other,follows,_⟩ => ?_,fun _ => rfl⟩
                cases cut
                cases found.symm.trans other
                rw [led] at follows
                cases follows
              | returned response seen =>
                refine ⟨fun _ ⟨_,_,_,_,_,_,cut,other,follows,_⟩ => ?_,fun _ => rfl⟩
                cases cut
                cases found.symm.trans other
                rw [led] at follows
                cases follows
              | follow followed =>
                refine (stream_tails taken body led rest).trans ?_
                constructor
                · rintro holds ⟨_,_,_,_,_,_,cut,other,follows,asked,handed,elsewhere,torn,reached⟩
                  cases cut
                  cases found.symm.trans other
                  rw [led] at follows
                  cases follows
                  cases fetched.symm.trans asked
                  rw [body] at torn
                  cases taken.handed.symm.trans handed
                  exact holds elsewhere (Prod.mk.inj (Option.some.inj torn)).2 reached
                · intro kept elsewhere torn reached
                  refine kept ⟨first,rest,pair,followed,_,content,rfl,found,led,fetched,taken.handed,elsewhere,?_,reached⟩
                  rw [body,torn]

-- What is promised of every hop of one call.
structure Checked (platform : Platform α) (options : Options) (call : Call β) (worlds : List (World α)) : Prop where
  reached : ∀ each ∈ sends platform options call worlds,
    (∃ reached, each.2.connection = some reached ∧ Approved platform each.1 each.2.url reached) ∧
      ∀ allows, options.allowUrl = some allows → allows each.2.url = true
  bare : Crossed (sends platform options call worlds)
  prescribed : (sends platform options call worlds).map (fun each => each.2.shown) = (prescribes platform options call worlds).map Fetched.shown
  few : (sends platform options call worlds).length ≤ 6

theorem hops_checked (platform : Platform α) (options : Options) (input : Input β) (init : Init β) (direct : proxyConfigured options init = false)
    (worlds : List (World α)) : Checked platform options ⟨input,init,0⟩ worlds ↔ ¬Lost platform options ⟨input,init,0⟩ worlds := by
  refine ⟨fun checked => (shown_exact _ _).mp checked.prescribed,fun kept => ⟨?_,sends_crossed _ _,(shown_exact _ _).mpr kept,sends_few _ _⟩⟩
  exact sends_all
    (fun each => (∃ reached, each.2.connection = some reached ∧ Approved platform each.1 each.2.url reached) ∧
      ∀ allows, options.allowUrl = some allows → allows each.2.url = true)
    (fun call : Call β => proxyConfigured options call.init = false)
    (fun _ _ _ _ here begun found _ => connection_approved begun found here)
    (fun call _ _ _ begun => by
      unfold proxyConfigured at begun ⊢
      rw [← base_proxy call] at begun
      exact begun)
    ⟨input,init,0⟩ direct worlds

end

def readUrl (text : Text) : Option Url :=
  if ['h','t','t','p','s',':','/','/'].isPrefixOf text then
    some ⟨.https,(text.drop 8).takeWhile fun char => char ≠ '/',none,(text.drop 8).dropWhile fun char => char ≠ '/'⟩
  else none

def showUrl (url : Url) : Text := ['h','t','t','p','s',':','/','/'] ++ url.hostname ++ url.behind

def Dotted : Type := {text : Text // (':' ∉ text ∧ '[' ∉ text ∧ ']' ∉ text) ∧ fourDotted text = true}

def dottedPlatform : Platform Dotted where
  parse := readUrl
  join location _ := (readUrl location).filter fun next => readUrl (showUrl next) = some next
  href := showUrl
  withHostname url text := {url with hostname := text}
  spelled := Subtype.val
  isIP text := if held : (':' ∉ text ∧ '[' ∉ text ∧ ']' ∉ text) ∧ fourDotted text = true then some ⟨text,held⟩ else none
  parse_href := fun _ _ next joined => of_decide_eq_true (Option.filter_eq_some_iff.mp joined).2
  isIP_pinned := fun _ address => by
    rw [if_neg address.2.1.1,UrlValidator.withoutBrackets_plain address.2.1.2.1 address.2.1.2.2]
    exact dif_pos address.2

def exampleAddress : Dotted := ⟨['9','3','.','1','8','4','.','2','1','6','.','3','4'],by decide⟩

def startUrl : Text := "https://example.com/start".toList

def plainInit : Init Text := ⟨none,none,none,none,false,none⟩

def directOptions : Options := ⟨none,false,false⟩

def answers (responses : List Response) : List (World Dotted) :=
  responses.map fun response => ⟨fun _ => some [exampleAddress],some response⟩

theorem hops_checked_get : Checked dottedPlatform directOptions ⟨.url startUrl,plainInit,0⟩
    (answers [⟨302,some "https://example.org/".toList⟩,⟨200,none⟩]) :=
  (hops_checked dottedPlatform directOptions (.url startUrl) plainInit rfl _).mpr
    fun ⟨_,_,_,_,_,_,_,_,_,_,handed,_⟩ => (nomatch handed)

-- A Request whose text is to be posted again, to the same host.
def posted : Call Text := ⟨.request ⟨startUrl,POST,[],some (.source ['x']),.follow⟩,plainInit,0⟩

theorem posted_lost : proxyConfigured directOptions posted.init = false ∧ ¬Checked dottedPlatform directOptions posted
    (answers [⟨307,some "https://example.com/again".toList⟩,⟨200,none⟩]) := by
  refine ⟨rfl,fun checked => ?_⟩
  have same := congrArg List.length checked.prescribed
  revert same
  rw [List.length_map,List.length_map]
  decide +kernel

end Zveltio.SafeFetch
