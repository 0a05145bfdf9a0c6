import Zveltio.SafeFetch
namespace Zveltio.Egress
open IpText (Text decimal value digit value_snoc)
open SafeFetch (Url Scheme)

def letterOrDigit (char : Char) : Bool := ('a' ≤ char && char ≤ 'z') || ('0' ≤ char && char ≤ '9')

def digitChar (char : Char) : Bool := '0' ≤ char && char ≤ '9'

-- [a-z0-9]([a-z0-9-]*[a-z0-9])?
def label (text : Text) : Bool :=
  text.head?.any letterOrDigit && text.getLast?.any letterOrDigit && text.all fun char => letterOrDigit char || char = '-'

-- \[[0-9a-f:.]+\]
def bracketed (text : Text) : Bool :=
  text.head? = some '[' && text.getLast? = some ']' && 3 ≤ text.length &&
    (text.drop 1).dropLast.all fun char => ('0' ≤ char && char ≤ '9') || ('a' ≤ char && char ≤ 'f') || char = ':' || char = '.'

-- The digits of :\d{1,5} where the entry ends in it.
def portOf (entry : Text) : Option Text :=
  let digits := (entry.reverse.takeWhile digitChar).reverse
  if digits ≠ [] ∧ digits.length ≤ 5 ∧ (entry.reverse.dropWhile digitChar).head? = some ':' then some digits else none

-- e.replace(/:\d{1,5}$/, '')
def hostOf (entry : Text) : Text :=
  match portOf entry with
  | none => entry
  | some digits => entry.take (entry.length - (digits.length + 1))

-- No host ends as a port does, so what the pattern leaves to its optional port is what is taken off here.
def ENTRY_RE (entry : Text) : Bool := bracketed (hostOf entry) || ((hostOf entry).splitOn '.').all label

inductive Entry where
  | string (text : Text)
  | other (shown : Text)

def Entry.shown : Entry → Text
  | .string text => text
  | .other shown => shown

inductive Column where
  | absent
  | list (entries : List Entry)
  | other

-- The parser of URLs on an entry, http:// put before it: the host as it reads and shows it, and the number of the port,
-- which is not shown where it is the scheme's own.
structure Parser where
  parse : Text → Option Url
  host : Text → Option Text
  parse_entry : ∀ entry, ENTRY_RE entry = true → parse (['h','t','t','p',':','/','/'] ++ entry) = (host (hostOf entry)).bind fun hostname =>
    match portOf entry with
    | none => some ⟨.http,hostname,none,['/']⟩
    | some digits => if value 10 digits ≤ 65535 then some ⟨.http,hostname,if value 10 digits = 80 then none else some (value 10 digits),['/']⟩ else none

section
variable (parser : Parser)

def parseEntry (entry : Entry) : Except String Text :=
  match entry with
  | .other shown => .error s!"egress: \"{String.ofList shown}\" is not a host — list lower-case host names or host:port, no scheme, path or wildcard"
  | .string text =>
    if ENTRY_RE text = false then
      .error s!"egress: \"{String.ofList text}\" is not a host — list lower-case host names or host:port, no scheme, path or wildcard"
    else match parser.parse (['h','t','t','p',':','/','/'] ++ text) with
      | none => .error s!"egress: \"{String.ofList text}\" is not a valid host:port"
      | some parsed =>
        if parsed.hostname ≠ hostOf text then
          .error s!"egress: \"{String.ofList text}\" is written \"{String.ofList parsed.hostname}\" by the URL parser — list it that way"
        else .ok text

def parseEgress : Column → Except String (Option (List Text))
  | .absent => .ok none
  | .other => .error "egress: not a list of hosts"
  | .list entries => (entries.mapM (parseEntry parser)).map some

end

def defaultPort : Scheme → Nat
  | .https => 443
  | _ => 80

def egressAllows (list : List Text) (url : Url) : Bool :=
  url.web && list.any fun entry => (url.port = none && entry = url.hostname) ||
    entry = url.hostname ++ ':' :: decimal (url.port.getD (defaultPort url.scheme))

-- What the parser makes of any URL: no port that is the scheme's own, and a colon in no host but one in brackets.
structure Normalized (url : Url) : Prop where
  web : url.web = true
  port : ∀ port, url.port = some port → port ≤ 65535 ∧ port ≠ defaultPort url.scheme
  hostname : ':' ∉ url.hostname ∨ url.hostname.getLast? = some ']'

-- The entry names the URL's host and the port it is reached on.
def Names (entry : Text) (url : Url) : Prop :=
  hostOf entry = url.hostname ∧ url.port.getD (defaultPort url.scheme) = ((portOf entry).map (value 10)).getD (defaultPort url.scheme)

def Padded (entry : Text) : Prop := ∃ digits, portOf entry = some ('0'::digits) ∧ digits ≠ []

structure Means (list : List Text) : Prop where
  allows : ∀ url, Normalized url → (egressAllows list url = true ↔ ∃ entry ∈ list, Names entry url)
  admits : ∀ entry ∈ list, ∃ url, Normalized url ∧ egressAllows [entry] url = true

theorem digitChar_plain : digitChar char = true ↔ '0' ≤ char ∧ char ≤ '9' := by simp [digitChar]

theorem portOf_some {entry digits : Text} (found : portOf entry = some digits) :
    ∃ front, entry = front ++ ':' :: digits ∧ hostOf entry = front ∧ digits ≠ [] ∧ digits.length ≤ 5 ∧ ∀ char ∈ digits, digitChar char = true := by
  have host : hostOf entry = entry.take (entry.length - (digits.length + 1)) := by rw [hostOf,found]
  unfold portOf at found
  dsimp only at found
  split at found
  · next marked =>
    cases found
    obtain ⟨some_digit,short,colon⟩ := marked
    obtain ⟨front,same⟩ : ∃ front, entry.reverse.dropWhile digitChar = ':'::front := by
      cases cut : entry.reverse.dropWhile digitChar with
      | nil =>
        rw [cut] at colon
        cases colon
      | cons head front =>
        rw [cut] at colon
        exact ⟨front,by rw [Option.some.inj colon]⟩
    have whole : entry = front.reverse ++ ':' :: (entry.reverse.takeWhile digitChar).reverse := by
      have split := List.takeWhile_append_dropWhile (p := digitChar) (l := entry.reverse)
      rw [same] at split
      have back := congrArg List.reverse split
      rw [List.reverse_reverse,List.reverse_append,List.reverse_cons,List.append_assoc] at back
      exact back.symm
    refine ⟨front.reverse,whole,?_,some_digit,short,fun char listed => ?_⟩
    · have sized := congrArg List.length whole
      rw [List.length_append,List.length_cons] at sized
      rw [host,show entry.length - ((entry.reverse.takeWhile digitChar).reverse.length + 1) = front.reverse.length by omega]
      exact (congrArg (List.take _) whole).trans List.take_left
    · exact List.mem_takeWhile_imp (List.mem_reverse.mp listed)
  · cases found

theorem portOf_join {digits : Text} (some_digit : digits ≠ []) (short : digits.length ≤ 5) (plain : ∀ char ∈ digits, digitChar char = true) (front : Text) :
    portOf (front ++ ':' :: digits) = some digits := by
  have turned : (front ++ ':' :: digits).reverse = digits.reverse ++ ':' :: front.reverse := by simp
  have taken : (digits.reverse ++ ':' :: front.reverse).takeWhile digitChar = digits.reverse := by
    rw [List.takeWhile_append_of_pos fun char listed => plain char (List.mem_reverse.mp listed)]
    rw [List.takeWhile_cons_of_neg (by decide),List.append_nil]
  have dropped : (digits.reverse ++ ':' :: front.reverse).dropWhile digitChar = ':' :: front.reverse := by
    rw [List.dropWhile_append_of_pos fun char listed => plain char (List.mem_reverse.mp listed)]
    rw [List.dropWhile_cons_of_neg (by decide)]
  unfold portOf
  dsimp only
  rw [turned,taken,dropped,List.reverse_reverse]
  exact if_pos ⟨some_digit,short,rfl⟩

theorem portOf_host {host : Text} (closed : ':' ∉ host ∨ host.getLast? = some ']') : portOf host = none := by
  cases found : portOf host with
  | none => rfl
  | some digits =>
    obtain ⟨front,whole,_,some_digit,_,plain⟩ := portOf_some found
    rcases closed with clear | last
    · exact absurd (whole ▸ List.mem_append_right front (List.mem_cons_self ..)) clear
    · have digit_last : host.getLast? = digits.getLast? := by
        rw [whole,List.getLast?_append_of_ne_nil _ (List.cons_ne_nil _ _),List.getLast?_cons_of_ne_nil some_digit]
      have bracket := plain ']' (List.mem_of_getLast? (digit_last.symm.trans last))
      exact absurd bracket (by decide)

theorem hostOf_join {digits : Text} (some_digit : digits ≠ []) (short : digits.length ≤ 5) (plain : ∀ char ∈ digits, digitChar char = true) (front : Text) :
    hostOf (front ++ ':' :: digits) = front := by
  obtain ⟨other,whole,host,_⟩ := portOf_some (portOf_join some_digit short plain front)
  rw [host]
  exact (List.append_inj_left' whole rfl).symm

theorem decimal_digits {port : Nat} (small : port ≤ 65535) : decimal port ≠ [] ∧ (decimal port).length ≤ 5 ∧ ∀ char ∈ decimal port, digitChar char = true := by
  refine ⟨Nat.toDigits_ne_nil,(Nat.length_toDigits_le_iff (by decide) (by decide)).mpr (by omega),fun char listed => ?_⟩
  obtain ⟨digit,less,rfl⟩ := IpText.digits_small (by decide) (by decide) port listed
  have each : ∀ small < 10, digitChar (Nat.digitChar small) = true := by decide
  exact each digit less

theorem effective_small {url : Url} (normal : Normalized url) : url.port.getD (defaultPort url.scheme) ≤ 65535 := by
  cases here : url.port with
  | none =>
    unfold defaultPort
    rw [Option.getD_none]
    split <;> omega
  | some port => exact (normal.port port here).1

def matched (entry : Text) (url : Url) : Bool :=
  (url.port = none && entry = url.hostname) || entry = url.hostname ++ ':' :: decimal (url.port.getD (defaultPort url.scheme))

-- What matches is what the entry names, and its port is written as the parser writes it.
theorem matched_names {entry : Text} {url : Url} (normal : Normalized url) (same : matched entry url = true) : Names entry url ∧ ¬Padded entry := by
  obtain ⟨some_digit,short,plain⟩ := decimal_digits (effective_small normal)
  unfold matched at same
  rcases Bool.or_eq_true_iff.mp same with bare | ported
  · obtain ⟨unported,rfl⟩ : url.port = none ∧ entry = url.hostname := by simpa using bare
    have none_found := portOf_host normal.hostname
    refine ⟨⟨by rw [hostOf,none_found],by rw [none_found,unported]; rfl⟩,fun ⟨_,wrong,_⟩ => ?_⟩
    rw [none_found] at wrong
    cases wrong
  · have whole := of_decide_eq_true ported
    have found := portOf_join some_digit short plain url.hostname
    have host := hostOf_join some_digit short plain url.hostname
    rw [← whole] at found host
    refine ⟨⟨host,?_⟩,?_⟩
    · rw [found,Option.map_some,Option.getD_some]
      exact (IpText.value_toDigits (by decide) (by decide) _).symm
    · rintro ⟨digits,wrong,more⟩
      have lead := Option.some.inj (found.symm.trans wrong)
      rcases Nat.eq_zero_or_pos (url.port.getD (defaultPort url.scheme)) with zero | positive
      · rw [zero] at lead
        exact more (List.cons.inj (show ['0'] = '0'::digits from lead)).2.symm
      · exact IpText.toDigits_lead positive (by rw [show Nat.toDigits 10 _ = '0'::digits from lead]; rfl)

theorem names_matched {entry : Text} {url : Url} (normal : Normalized url) (unpadded : ¬Padded entry) (names : Names entry url) : matched entry url = true := by
  obtain ⟨host,port⟩ := names
  unfold matched
  cases found : portOf entry with
  | none =>
    rw [found,Option.map_none,Option.getD_none] at port
    have unported : url.port = none := by
      cases here : url.port with
      | none => rfl
      | some own =>
        rw [here] at port
        exact absurd port (normal.port own here).2
    rw [hostOf,found] at host
    simp [unported,show entry = url.hostname from host]
  | some digits =>
    rw [found,Option.map_some,Option.getD_some] at port
    obtain ⟨front,whole,front_host,some_digit,_,plain⟩ := portOf_some found
    have written : decimal (value 10 digits) = digits := by
      refine IpText.decimal_value (fun char listed => digitChar_plain.mp (plain char listed)) some_digit fun rest same => ?_
      by_contra more
      exact unpadded ⟨rest,by rw [found,same],more⟩
    have same : entry = url.hostname ++ ':' :: decimal (url.port.getD (defaultPort url.scheme)) := by
      rw [port,written,← host,front_host]
      exact whole
    rw [decide_eq_true same,Bool.or_true]

theorem label_clear {text : Text} (named : label text = true) : ':' ∉ text := by
  intro listed
  have each := List.all_eq_true.mp (Bool.and_eq_true_iff.mp named).2 ':' listed
  exact absurd each (by decide)

theorem host_closed {entry : Text} (accepted : ENTRY_RE entry = true) : ':' ∉ hostOf entry ∨ (hostOf entry).getLast? = some ']' := by
  rcases Bool.or_eq_true_iff.mp accepted with literal | named
  · unfold bracketed at literal
    simp only [Bool.and_eq_true,decide_eq_true_eq] at literal
    exact .inr literal.1.1.2
  · refine .inl fun listed => ?_
    have back : IpText.joined '.' ((hostOf entry).splitOn '.') = hostOf entry := List.intercalate_splitOn ..
    rw [← back] at listed
    rcases IpText.joined_mem listed with dot | ⟨part,inside,colon⟩
    · exact absurd dot (by decide)
    · exact label_clear (List.all_eq_true.mp named part inside) colon

theorem parseEntry_ok {parser : Parser} (accepted : parseEntry parser entry = .ok text) :
    ENTRY_RE text = true ∧ parser.host (hostOf text) = some (hostOf text) ∧ ∀ digits, portOf text = some digits → value 10 digits ≤ 65535 := by
  cases entry with
  | other shown => cases accepted
  | string given =>
    unfold parseEntry at accepted
    dsimp only at accepted
    split at accepted
    · cases accepted
    · next fits =>
      have pattern : ENTRY_RE given = true := by simpa using fits
      cases read : parser.parse (['h','t','t','p',':','/','/'] ++ given) with
      | none =>
        rw [read] at accepted
        cases accepted
      | some parsed =>
        rw [read] at accepted
        dsimp only at accepted
        split at accepted
        · cases accepted
        · next same =>
          cases accepted
          have spelled : parsed.hostname = hostOf text := not_not.mp same
          rw [parser.parse_entry text pattern] at read
          obtain ⟨hostname,shown,ported⟩ := Option.bind_eq_some_iff.mp read
          refine ⟨pattern,?_,fun digits found => ?_⟩
          · have named : parsed.hostname = hostname := by
              split at ported
              · cases ported
                rfl
              · split at ported
                · cases ported
                  rfl
                · cases ported
            rw [shown,← named,spelled]
          · rw [found] at ported
            dsimp only at ported
            split at ported
            · next small => exact small
            · cases ported

theorem accepted_names {parser : Parser} (accepted : parseEntry parser entry = .ok text) : ∃ url, Normalized url ∧ Names text url := by
  obtain ⟨pattern,_,small⟩ := parseEntry_ok accepted
  cases found : portOf text with
  | none => exact ⟨⟨.http,hostOf text,none,['/']⟩,⟨rfl,fun _ wrong => (nomatch wrong),host_closed pattern⟩,rfl,by rw [found]; rfl⟩
  | some digits =>
    by_cases own : value 10 digits = 80
    · exact ⟨⟨.http,hostOf text,none,['/']⟩,⟨rfl,fun _ wrong => (nomatch wrong),host_closed pattern⟩,rfl,by rw [found,Option.map_some,own]; rfl⟩
    · refine ⟨⟨.http,hostOf text,some (value 10 digits),['/']⟩,⟨rfl,?_,host_closed pattern⟩,rfl,by rw [found]; rfl⟩
      rintro port ⟨⟩
      exact ⟨small digits found,own⟩

theorem mapM_ok {f : γ → Except ε δ} {list : List γ} (all : list.mapM f = .ok results) : ∀ result ∈ results, ∃ each ∈ list, f each = .ok result := by
  induction list generalizing results with
  | nil =>
    cases all
    exact fun _ wrong => absurd wrong List.not_mem_nil
  | cons each list ih =>
    rw [List.mapM_cons] at all
    cases one : f each with
    | error failure =>
      rw [one] at all
      cases all
    | ok first =>
      rw [one] at all
      cases more : list.mapM f with
      | error failure =>
        rw [more] at all
        cases all
      | ok later =>
        rw [more] at all
        cases all
        intro result listed
        rcases List.mem_cons.mp listed with rfl | held
        · exact ⟨each,List.mem_cons_self ..,one⟩
        · obtain ⟨other,inside,given⟩ := ih more result held
          exact ⟨other,List.mem_cons_of_mem _ inside,given⟩

theorem parseEgress_ok {parser : Parser} (accepted : parseEgress parser (.list entries) = .ok (some list)) :
    ∀ text ∈ list, ∃ entry ∈ entries, parseEntry parser entry = .ok text := by
  unfold parseEgress at accepted
  dsimp only at accepted
  cases all : entries.mapM (parseEntry parser) with
  | error failure =>
    rw [all] at accepted
    cases accepted
  | ok results =>
    rw [all] at accepted
    cases accepted
    exact mapM_ok all

theorem egressAllows_matched {list : List Text} {url : Url} (web : url.web = true) :
    egressAllows list url = true ↔ ∃ entry ∈ list, matched entry url = true := by
  unfold egressAllows
  rw [web,Bool.true_and]
  exact List.any_eq_true

-- An accepted list means what it says unless a port in it has zeros in front.
theorem egress_means (parser : Parser) (entries : List Entry) (list : List Text) (accepted : parseEgress parser (.list entries) = .ok (some list)) :
    Means list ↔ ∀ entry ∈ list, ¬Padded entry := by
  constructor
  · intro means entry listed
    obtain ⟨url,normal,allowed⟩ := means.admits entry listed
    obtain ⟨only,alone,same⟩ := (egressAllows_matched normal.web).mp allowed
    rw [List.mem_singleton.mp alone] at same
    exact (matched_names normal same).2
  · intro plain
    refine ⟨fun url normal => (egressAllows_matched normal.web).trans ?_,fun entry listed => ?_⟩
    · constructor
      · rintro ⟨entry,listed,same⟩
        exact ⟨entry,listed,(matched_names normal same).1⟩
      · rintro ⟨entry,listed,names⟩
        exact ⟨entry,listed,names_matched normal (plain entry listed) names⟩
    · obtain ⟨_,_,taken⟩ := parseEgress_ok accepted entry listed
      obtain ⟨url,normal,names⟩ := accepted_names taken
      exact ⟨url,normal,(egressAllows_matched normal.web).mpr ⟨entry,List.mem_singleton_self _,names_matched normal (plain entry listed) names⟩⟩

theorem egress_reached (platform : SafeFetch.Platform α) (list : List Text) (pin environment : Bool)
    (call : SafeFetch.Call β) (worlds : List (SafeFetch.World α)) :
    ∀ each ∈ SafeFetch.sends platform ⟨some (egressAllows list),pin,environment⟩ call worlds,
      Normalized each.2.url → ∃ entry ∈ list, Names entry each.2.url :=
  SafeFetch.sends_all (fun each => Normalized each.2.url → ∃ entry ∈ list, Names entry each.2.url) (fun _ => True)
    (fun _ _ url _ _ _ found _ normal => by
      have allowed := (SafeFetch.admitted_admission found).allowed (egressAllows list) rfl
      obtain ⟨entry,listed,same⟩ := (egressAllows_matched normal.web).mp allowed
      exact ⟨entry,listed,(matched_names normal same).1⟩)
    (fun _ _ _ _ _ => trivial) call trivial worlds

def exampleHost : Text := "example.com".toList

theorem egress_reached_example : ∃ each ∈ SafeFetch.sends SafeFetch.dottedPlatform ⟨some (egressAllows [exampleHost]),false,false⟩
    ⟨.url SafeFetch.startUrl,SafeFetch.plainInit,0⟩ (SafeFetch.answers [⟨200,none⟩]), ∃ entry ∈ [exampleHost], Names entry each.2.url := by
  have sent : (SafeFetch.sends SafeFetch.dottedPlatform ⟨some (egressAllows [exampleHost]),false,false⟩
    ⟨.url SafeFetch.startUrl,SafeFetch.plainInit,0⟩ (SafeFetch.answers [⟨200,none⟩])).map (fun each => each.2.url) =
      [⟨.https,exampleHost,none,"/start".toList⟩] := by decide +kernel
  obtain ⟨each,among,same⟩ := List.mem_map.mp (sent ▸ List.mem_cons_self)
  exact ⟨each,among,egress_reached _ _ _ _ _ _ each among (same ▸ ⟨rfl,by rintro _ ⟨⟩,Or.inl (by decide)⟩)⟩

-- A parser whose hosts stand for themselves.
def plainParser : Parser where
  parse text := if ENTRY_RE (text.drop 7) then
      match portOf (text.drop 7) with
      | none => some ⟨.http,hostOf (text.drop 7),none,['/']⟩
      | some digits => if value 10 digits ≤ 65535 then
          some ⟨.http,hostOf (text.drop 7),if value 10 digits = 80 then none else some (value 10 digits),['/']⟩
        else none
    else none
  host := some
  parse_entry := fun entry pattern => by
    have back : (['h','t','t','p',':','/','/'] ++ entry).drop 7 = entry := rfl
    rw [back,if_pos pattern]
    rfl

def stripe : Text := "api.stripe.com:8443".toList

theorem egress_means_stripe : Means [stripe] :=
  (egress_means plainParser [.string stripe] [stripe] (by decide +kernel)).mpr fun entry listed => by
    rintro ⟨digits,found,_⟩
    rw [List.mem_singleton.mp listed,show portOf stripe = some ['8','4','4','3'] by decide +kernel] at found
    cases found

def padded : Text := "api.stripe.com:0443".toList

theorem padded_never : parseEgress plainParser (.list [.string padded]) = .ok (some [padded]) ∧ ¬Means [padded] := by
  refine ⟨by decide +kernel,fun means => ?_⟩
  obtain ⟨url,normal,allowed⟩ := means.admits padded (List.mem_singleton_self _)
  obtain ⟨only,alone,same⟩ := (egressAllows_matched normal.web).mp allowed
  rw [List.mem_singleton.mp alone] at same
  exact (matched_names normal same).2 ⟨['4','4','3'],by decide +kernel,List.cons_ne_nil _ _⟩

end Zveltio.Egress
