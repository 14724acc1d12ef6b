import ChunkHound.RemoteRules

/-!
# Fetching the remote configuration

The fetcher follows redirects itself. Before each request after the first it holds the target
against the rule for URLs, `https` or `http` to a loopback host, and takes the `Authorization`
header out once the origin changes. The header is a template, and is not sent at all where a
variable in it is not set.

`fetch_guarded` : whatever the servers answer, every URL that is requested satisfies the rule, there
are at most six requests, and one that carries the header goes to the origin that was configured,
as all before it did. An envelope comes from the last of them, which was answered without an error.

How the standard library takes URLs apart and joins them is a parameter, and may raise. What an
exception of the client or the deadline of ten seconds ends is a request without a response. A
header that the client makes of a user name in a URL is not part of this.
-/

namespace ChunkHound.RemoteConfig

abbrev Url := List Char

/-- What `urlsplit` finds. The port is none where it cannot be read, and may be missing. -/
structure SplitResult where
  scheme : List Char
  hostname : Option (List Char)
  port : Option (Option ℕ)

/-- The functions of the standard library. They give nothing where they raise. -/
structure Urls where
  urlsplit : Url → Option SplitResult
  urljoin : Url → Url → Option Url
  lower : List Char → List Char
  /-- `ipaddress.ip_address(…).is_loopback`. -/
  isLoopback : List Char → Option Bool

namespace Urls

variable (urls : Urls)

/-- `str.strip("[]")`. -/
def stripBrackets (hostname : List Char) : List Char :=
  let bracket := fun c : Char => decide (c ∈ ['[', ']'])
  (hostname.dropWhile bracket).rdropWhile bracket

/-- `_is_loopback_host`. -/
def isLoopbackHost (hostname : Option (List Char)) : Bool :=
  match hostname with
  | none | some [] => false
  | some hostname =>
    urls.lower hostname = "localhost".toList ||
      (urls.isLoopback (stripBrackets hostname)).getD false

/-- `url_scheme_ok`. -/
def schemeOk (url : Url) : Option Bool :=
  (urls.urlsplit url).map fun parts =>
    parts.scheme = "https".toList ||
      parts.scheme = "http".toList && urls.isLoopbackHost parts.hostname

/-- `_DEFAULT_PORTS.get(scheme)`. -/
def defaultPort (scheme : List Char) : Option ℕ :=
  [("http".toList, 80), ("https".toList, 443)].lookup scheme

/-- `_origin`. -/
def origin (url : Url) : Option (List Char × Option (List Char) × Option ℕ) :=
  (urls.urlsplit url).bind fun parts =>
    parts.port.map fun port => (parts.scheme, parts.hostname, port.or (defaultPort parts.scheme))

end Urls

/-- The answer to a request. The JSON is none where the body has none. -/
structure Response where
  status : ℕ
  location : Option Url
  json : Option Value

/-- A request, with the `Authorization` header if there is one. -/
structure Request where
  url : Url
  authorization : Option (List Char)

/-- The response to each request, by its number, none where it is not completed. -/
abbrev Servers := ℕ → Request → Option Response

def redirectStatuses : List ℕ := [301, 302, 303, 307, 308]

def maxRedirects : ℕ := 5

/-! ## The header -/

/-- A name and what follows its closing brace. -/
def reference : List Char → Option (List Char × List Char)
  | '$' :: '{' :: rest =>
    let name := rest.takeWhile (· ≠ '}')
    match name, rest.drop name.length with
    | _ :: _, '}' :: after => some (name, after)
    | _, _ => none
  | _ => none

/-- The text with its references replaced, and the names of those that have no value. The first `n`
characters belong to a reference that has been replaced. -/
def substitute (environ : List Char → List Char) : ℕ → List Char → List Char × List (List Char)
  | _, [] => ([], [])
  | n + 1, _ :: cs => substitute environ n cs
  | 0, c :: cs =>
    match reference (c :: cs) with
    | some (name, after) =>
      let rest := substitute environ (cs.length - after.length) cs
      (environ name ++ rest.1, if (environ name).isEmpty then name :: rest.2 else rest.2)
    | none =>
      let rest := substitute environ 0 cs
      (c :: rest.1, rest.2)

/-- `_interpolate_env`. A variable that is not set is empty. -/
def interpolateEnv (environ : List Char → List Char) (template : List Char) : Option (List Char) :=
  if (substitute environ 0 template).2.isEmpty then some (substitute environ 0 template).1 else none

example : interpolateEnv (fun name => if name = ['T'] then ['x', '$'] else [])
    ['a', '$', '{', 'T', '}', '$', '{'] = some ['a', 'x', '$', '$', '{'] := by decide

/-! ## Redirects -/

section Fetch

/-- `_fetch_with_redirects` with `n` requests left : the requests it makes, and the response that is
not a redirect, if it comes to one. -/
def fetchWithRedirects (urls : Urls) (servers : Servers) :
    ℕ → ℕ → Url → Option (List Char) → List Request × Option Response
  | 0, _, _, _ => ([], none)
  | n + 1, number, url, authorization =>
    let request : Request := ⟨url, authorization⟩
    match servers number request with
    | none => ([request], none)
    | some response =>
      if response.status ∉ redirectStatuses then ([request], some response)
      else
        match response.location with
        | none | some [] => ([request], some response)
        | some location =>
          match urls.urljoin url location with
          | none => ([request], none)
          | some next =>
            match urls.schemeOk next, urls.origin next, urls.origin url with
            | some true, some o, some o' =>
              let kept := if o = o' then authorization else none
              let rest := fetchWithRedirects urls servers n (number + 1) next kept
              (request :: rest.1, rest.2)
            | _, _, _ => ([request], none)

/-- `fetch` : the requests, and the parsed envelope. -/
def fetch (urls : Urls) (servers : Servers) (environ : List Char → List Char) (url : Url)
    (authHeader : Option (List Char)) : List Request × Option Value :=
  match urls.schemeOk url with
  | some true =>
    let (requests, final) := fetchWithRedirects urls servers (maxRedirects + 1) 0 url
      (authHeader.bind (interpolateEnv environ))
    match final with
    | some response =>
      if 400 ≤ response.status then (requests, none) else (requests, response.json)
    | none => (requests, none)
  | _ => ([], none)

/-! ## What is requested -/

/-- Every URL satisfies the rule, and a request that carries a header carries the one given and goes
to the origin of the first, as all before it. -/
structure Guarded (urls : Urls) (url : Url) (authorization : Option (List Char))
    (requests : List Request) : Prop where
  scheme : ∀ r ∈ requests, urls.schemeOk r.url = some true
  carried : ∀ front r back, requests = front ++ r :: back → r.authorization ≠ none →
    r.authorization = authorization ∧ ∀ r' ∈ front ++ [r], urls.origin r'.url = urls.origin url

variable {urls : Urls} {servers : Servers}

variable {authorization : Option (List Char)}

theorem Guarded.nil {url : Url} :
    Guarded urls url authorization [] where
  scheme := fun _ h => absurd h List.not_mem_nil
  carried := fun front _ _ h => absurd h.symm (List.append_ne_nil_of_right_ne_nil front
    (List.cons_ne_nil _ _))

theorem Guarded.single {url : Url} (hscheme : urls.schemeOk url = some true) :
    Guarded urls url authorization [⟨url, authorization⟩] where
  scheme := fun r hr => by
    rw [List.mem_singleton.1 hr]
    exact hscheme
  carried := fun front r back h _ => by
    obtain ⟨rfl, hr⟩ : front = [] ∧ r :: back = [⟨url, authorization⟩] := by
      cases front with
      | nil => exact ⟨rfl, h.symm⟩
      | cons r' front => exact absurd (List.cons.inj h).2.symm (by simp)
    obtain ⟨rfl, -⟩ := List.cons.inj hr
    exact ⟨rfl, fun r' hr' => by rw [List.mem_singleton.1 hr']⟩

/-- One more request in front : those that follow carry the header only at the same origin. -/
theorem Guarded.cons {url next : Url} {requests : List Request}
    (hscheme : urls.schemeOk url = some true)
    (h : Guarded urls next
      (if urls.origin next = urls.origin url then authorization else none) requests) :
    Guarded urls url authorization (⟨url, authorization⟩ :: requests) where
  scheme := fun r hr => by
    rcases List.mem_cons.1 hr with rfl | hr
    · exact hscheme
    · exact h.scheme r hr
  carried := fun front r back heq hauth => by
    cases front with
    | nil =>
      obtain ⟨rfl, -⟩ := List.cons.inj heq
      exact ⟨rfl, fun r' hr' => by rw [List.mem_singleton.1 hr']⟩
    | cons r₀ front =>
      obtain ⟨rfl, hrest⟩ := List.cons.inj heq
      obtain ⟨hcarried, horigins⟩ := h.carried front r back hrest hauth
      by_cases horigin : urls.origin next = urls.origin url
      · rw [if_pos horigin] at hcarried
        refine ⟨hcarried, fun r' hr' => ?_⟩
        rcases List.mem_cons.1 hr' with rfl | hr'
        · rfl
        · exact (horigins r' hr').trans horigin
      · rw [if_neg horigin] at hcarried
        exact absurd hcarried hauth

/-- A request is not completed, or answered for good, or leads to another. -/
theorem fetchWithRedirects_cases (urls : Urls) (servers : Servers) (n number : ℕ) (url : Url)
    (authorization : Option (List Char)) :
    fetchWithRedirects urls servers (n + 1) number url authorization =
      ([⟨url, authorization⟩], none) ∨
    (∃ response, servers number ⟨url, authorization⟩ = some response ∧
      fetchWithRedirects urls servers (n + 1) number url authorization =
        ([⟨url, authorization⟩], some response)) ∨
    ∃ next kept rest, urls.schemeOk next = some true ∧
      kept = (if urls.origin next = urls.origin url then authorization else none) ∧
      rest = fetchWithRedirects urls servers n (number + 1) next kept ∧
      fetchWithRedirects urls servers (n + 1) number url authorization =
        (⟨url, authorization⟩ :: rest.1, rest.2) := by
  rw [fetchWithRedirects]
  dsimp only
  split
  · exact .inl rfl
  · rename_i response hresponse
    split
    · exact .inr (.inl ⟨response, hresponse, rfl⟩)
    · split
      · exact .inr (.inl ⟨response, hresponse, rfl⟩)
      · exact .inr (.inl ⟨response, hresponse, rfl⟩)
      · split
        · exact .inl rfl
        · rename_i next hjoin
          split
          · rename_i o o' hnext ho ho'
            refine .inr (.inr ⟨next, _, _, hnext, ?_, rfl, rfl⟩)
            simp only [ho, ho', Option.some_inj]
          · exact .inl rfl

theorem fetchWithRedirects_guarded (servers : Servers) : ∀ (n number : ℕ) (url : Url)
    (authorization : Option (List Char)), urls.schemeOk url = some true →
      Guarded urls url authorization
        (fetchWithRedirects urls servers n number url authorization).1 ∧
      (fetchWithRedirects urls servers n number url authorization).1.length ≤ n
  | 0, _, _, _, _ => ⟨.nil, le_rfl⟩
  | n + 1, number, url, authorization, hscheme => by
    rcases fetchWithRedirects_cases urls servers n number url authorization with
      h | ⟨response, -, h⟩ | ⟨next, kept, rest, hnext, hkept, hrest, h⟩
    · rw [h]
      exact ⟨.single hscheme, Nat.succ_le_succ (Nat.zero_le n)⟩
    · rw [h]
      exact ⟨.single hscheme, Nat.succ_le_succ (Nat.zero_le n)⟩
    · obtain ⟨hguarded, hlength⟩ :=
        fetchWithRedirects_guarded servers n (number + 1) next kept hnext
      rw [h]
      rw [← hrest] at hguarded hlength
      exact ⟨.cons hscheme (hkept ▸ hguarded), Nat.succ_le_succ hlength⟩

/-- The response comes from the last request. -/
theorem fetchWithRedirects_last {response : Response} : ∀ {n number : ℕ} {url : Url}
    {authorization : Option (List Char)},
    (fetchWithRedirects urls servers n number url authorization).2 = some response →
      ∃ front r, (fetchWithRedirects urls servers n number url authorization).1 = front ++ [r] ∧
        servers (number + front.length) r = some response
  | 0, _, _, _, h => by cases h
  | n + 1, number, url, authorization, h => by
    rcases fetchWithRedirects_cases urls servers n number url authorization with
      heq | ⟨answer, hanswer, heq⟩ | ⟨next, kept, rest, -, -, hrest, heq⟩
    · rw [heq] at h
      cases h
    · rw [heq] at h ⊢
      obtain rfl := Option.some.inj h
      exact ⟨[], _, rfl, hanswer⟩
    · rw [heq] at h ⊢
      obtain ⟨front, r, hfront, hlast⟩ := fetchWithRedirects_last (hrest ▸ h)
      refine ⟨⟨url, authorization⟩ :: front, r, ?_, ?_⟩
      · rw [hrest, hfront, List.cons_append]
      · rw [List.length_cons, ← Nat.add_assoc, Nat.add_right_comm]
        exact hlast

/-- What is fetched, and from where. -/
theorem fetch_guarded (environ : List Char → List Char) (url : Url)
    (authHeader : Option (List Char)) :
    Guarded urls url (authHeader.bind (interpolateEnv environ))
      (fetch urls servers environ url authHeader).1 ∧
    (fetch urls servers environ url authHeader).1.length ≤ maxRedirects + 1 ∧
    ∀ envelope, (fetch urls servers environ url authHeader).2 = some envelope →
      ∃ front r response, (fetch urls servers environ url authHeader).1 = front ++ [r] ∧
        servers front.length r = some response ∧ response.status < 400 ∧
        response.json = some envelope := by
  unfold fetch
  split
  · rename_i hscheme
    obtain ⟨hguarded, hlength⟩ := fetchWithRedirects_guarded servers (maxRedirects + 1) 0 url
      (authHeader.bind (interpolateEnv environ)) hscheme
    dsimp only
    split
    · rename_i response hfinal
      split
      · exact ⟨hguarded, hlength, fun _ h => by cases h⟩
      · rename_i hstatus
        refine ⟨hguarded, hlength, fun envelope hjson => ?_⟩
        obtain ⟨front, r, hfront, hlast⟩ := fetchWithRedirects_last hfinal
        rw [Nat.zero_add] at hlast
        exact ⟨front, r, response, hfront, hlast, not_le.1 hstatus, hjson⟩
    · exact ⟨hguarded, hlength, fun _ h => by cases h⟩
  · exact ⟨.nil, Nat.zero_le _, fun _ h => by cases h⟩

end Fetch

end ChunkHound.RemoteConfig
