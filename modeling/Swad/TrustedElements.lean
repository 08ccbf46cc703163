import Swad.ForParameter
import Swad.NodeText

/-!
The elements of the trusted proxies that count. Read from the right, they name addresses up to
the first element that names none, and the leftmost of these addresses identifies the client.
Which address an element names is said of its text. Nothing that the client puts before the
elements has an influence, but an element in which a semicolon is quoted can name an address
that the client chose.
-/
namespace Swad.TrustedElements

open Bytes Util Headerset Proxylist ProxyTrust ForParameter NodeText

/-- The text behind the name of the first part that is taken for the parameter. -/
def ForText (element value : Str) : Prop :=
  ∃ p q, Taken element p q ∧ (∀ p' q', p' < p → ¬ Taken element p' q') ∧
    value = (element.take q).drop (p + 4)

/-- The element is read as this address. -/
def Names (rfc7239 : Bool) (element address : Str) : Prop :=
  ∃ value, (if rfc7239 then ForText element value else value = element) ∧
    address = addressText value ∧ address ≠ []

/-- From the right the elements name addresses up to one that names none, if there is one. The
leftmost address is this one, or the peer has it if the last element names none. -/
def FirstNamed (rfc7239 : Bool) (peer : Str) (es : List Str) (address : Str) : Prop :=
  ∃ before own addrs, es = before ++ own ∧ List.Forall₂ (Names rfc7239) own addrs ∧
    (∀ e ∈ before.getLast?, ∀ a, ¬ Names rfc7239 e a) ∧ address = addrs.headD peer

section elements

variable {rfc7239 : Bool} {e value a peer : Str} {es before own addrs : List Str}

theorem forText_iff : stripRfc7239 e = some value ↔ ForText e value := by
  have hselects := stripAt_selects e
  have hpart (p q : ℕ) : textAt e (p + 4, q - (p + 4)) = (e.take q).drop (p + 4) :=
    List.drop_take.symm
  rw [stripRfc7239_eq]
  constructor
  · intro h
    obtain ⟨r, hr, rfl⟩ := Option.map_eq_some_iff.mp h
    rw [hr] at hselects
    obtain ⟨p, q, htaken, -, rfl, hfirst⟩ := hselects
    exact ⟨p, q, htaken, fun p' q' hlt h' => absurd (hfirst p' q' (Nat.zero_le _) h') (by omega),
      hpart p q⟩
  · rintro ⟨p, q, htaken, hfirst, rfl⟩
    have hlength := htaken.length
    have hplace : p + 4 + (q - (p + 4)) = q := by omega
    have hat : stripAt e = some (p + 4, q - (p + 4)) :=
      selects_pair_iff.mpr ⟨by rwa [hplace], hfirst⟩
    rw [hat, Option.map_some, hpart]

theorem entryFits_of_length (h : e.length ≤ 511) (rfc7239 : Bool) : EntryFits rfc7239 e := by
  by_contra hover
  obtain ⟨r, hr⟩ := ProxyTrust.parseEntry_fits h rfc7239
  rw [parseEntry_overflows hover] at hr
  cases hr

/-- What is read off an element is the address that it names. -/
theorem parseEntry_iff (h : e.length ≤ 511) :
    parseEntry e rfc7239 = some (some a) ↔ Names rfc7239 e a := by
  have htext : ∀ value, entryText rfc7239 e = some value ↔
      if rfc7239 then ForText e value else value = e := by
    intro value
    unfold entryText
    cases rfc7239 with
    | true => exact forText_iff
    | false =>
      show some e = some value ↔ value = e
      rw [Option.some.injEq, eq_comm]
  rw [NodeText.parseEntry_fits (entryFits_of_length h rfc7239), Option.some.injEq]
  unfold entryAddress Names
  constructor
  · intro hread
    split at hread
    · cases hread
    · next hne =>
      obtain rfl := Option.some.inj hread
      cases hentry : entryText rfc7239 e with
      | none =>
        rw [hentry] at hne
        exact absurd rfl hne
      | some value =>
        rw [hentry] at hne
        exact ⟨value, (htext value).mp hentry, rfl, hne⟩
  · rintro ⟨value, hvalue, rfl, hne⟩
    rw [(htext value).mpr hvalue, Option.elim_some, if_neg hne]

/-- The elements that count are those that are read; the last element comes first here. -/
theorem readOwn_eq {rest : List Str} (hfits : ∀ e ∈ own ++ rest, e.length ≤ 511)
    (hown : List.Forall₂ (Names rfc7239) own addrs)
    (hrest : ∀ e ∈ rest.head?, ∀ a, ¬ Names rfc7239 e a) :
    (readOwn rfc7239 (own ++ rest)).addrs = addrs := by
  induction hown with
  | nil =>
    rw [List.nil_append] at hfits ⊢
    cases rest with
    | nil => rfl
    | cons last rest =>
      rw [readOwn]
      split
      · next addr hread =>
        have hnames := (parseEntry_iff (hfits last List.mem_cons_self)).mp hread
        exact absurd hnames (hrest last rfl addr)
      · rfl
  | cons hnames _ ih =>
    rw [List.cons_append, List.forall_mem_cons] at hfits
    rw [List.cons_append, readOwn, (parseEntry_iff hfits.1).mpr hnames]
    exact congrArg _ (ih hfits.2)

/-- What the elements name is found by reading them. -/
theorem trustedAddr_of_named (hfits : ∀ e ∈ es, e.length ≤ 511)
    (h : FirstNamed rfc7239 peer es a) : trustedAddr rfc7239 peer es = a := by
  obtain ⟨before, own, addrs, rfl, hown, hbefore, rfl⟩ := h
  rw [← List.head?_reverse] at hbefore
  have hread := readOwn_eq (fun e he => hfits e (by
      rw [List.mem_append, List.mem_reverse, List.mem_reverse, or_comm] at he
      exact List.mem_append.mpr he)) (List.forall₂_reverse_iff.mpr hown) hbefore
  rw [trustedAddr, List.reverse_append, hread, List.getLast?_reverse]
  cases addrs with
  | nil => rfl
  | cons addr addrs => rfl

/-- Some address is always named. -/
theorem exists_named (rfc7239 : Bool) (peer : Str) (es : List Str) :
    ∃ a, FirstNamed rfc7239 peer es a := by
  induction es using List.reverseRecOn with
  | nil => exact ⟨peer, [], [], [], rfl, .nil, fun e he => (by cases he), rfl⟩
  | append_singleton es e ih =>
    by_cases hnames : ∃ a, Names rfc7239 e a
    · obtain ⟨a, hnames⟩ := hnames
      obtain ⟨_, before, own, addrs, rfl, hown, hbefore, -⟩ := ih
      exact ⟨_, before, own ++ [e], addrs ++ [a], List.append_assoc ..,
        List.rel_append hown (.cons hnames .nil), hbefore, rfl⟩
    · refine ⟨peer, es ++ [e], [], [], (List.append_nil _).symm, .nil, fun e' he a ha => ?_, rfl⟩
      rw [List.getLast?_concat] at he
      obtain rfl := Option.some.inj he
      exact hnames ⟨a, ha⟩

/-- The client has the address that the elements name first. -/
theorem trustedAddr_iff (hfits : ∀ e ∈ es, e.length ≤ 511) :
    trustedAddr rfc7239 peer es = a ↔ FirstNamed rfc7239 peer es a := by
  constructor
  · rintro rfl
    obtain ⟨a, ha⟩ := exists_named rfc7239 peer es
    rwa [trustedAddr_of_named hfits ha]
  · exact trustedAddr_of_named hfits

/-- Plain elements name the addresses that they are for. -/
theorem named_of_plain (hfits : ∀ e ∈ es, e.length ≤ 511) {as : List Str}
    (h : List.Forall₂ (AppendedPlain rfc7239) as es) :
    FirstNamed rfc7239 peer es (as.headD peer) := by
  refine ⟨[], es, as, rfl, ?_, fun e he => (by cases he), rfl⟩
  induction h with
  | nil => exact .nil
  | cons hplain _ ih =>
    rw [List.forall_mem_cons] at hfits
    exact .cons ((parseEntry_iff hfits.1).mp (parseEntry_plain hplain hfits.1)) (ih hfits.2)

end elements

/-- The address that identifies the client is the one that the proxies' elements name first,
whatever the client puts before them. It is the one that the first proxy saw if and only if they
name that one, as plain elements and those of X-Forwarded-For always do. -/
theorem clientAddr_iff {rfc7239 : Bool} {p : Option Str} {as es : List Str} {hdrs : HeaderSet}
    {header : ProxyHeader} (peer : RemoteEntry)
    (hes : List.Forall₂ (AppendedFor rfc7239) as es)
    (hreq : Request rfc7239 p es hdrs header) :
    (clientAddr hdrs ⟨es.length, header⟩ peer = some (as.headD peer.addr) ↔
      FirstNamed rfc7239 peer.addr es (as.headD peer.addr)) ∧
    (∃ a, clientAddr hdrs ⟨es.length, header⟩ peer = some a ∧
      FirstNamed rfc7239 peer.addr es a) ∧
    (∀ p' hdrs' header', Request rfc7239 p' es hdrs' header' →
      clientAddr hdrs' ⟨es.length, header'⟩ peer = clientAddr hdrs ⟨es.length, header⟩ peer) ∧
    (rfc7239 = false ∨ List.Forall₂ (AppendedPlain rfc7239) as es →
      FirstNamed rfc7239 peer.addr es (as.headD peer.addr)) := by
  have hsplit := splittable_of_forall₂ hes
  have heq := clientAddr_eq hreq hsplit peer
  have hfits : ∀ e ∈ es, e.length ≤ 511 :=
    fun e he => hreq.fits e (mem_splitAll p es hsplit hreq.count e he)
  rw [heq]
  refine ⟨?_, ⟨_, rfl, (trustedAddr_iff hfits).mp rfl⟩, ?_, ?_⟩
  · rw [Option.some.injEq]
    exact trustedAddr_iff hfits
  · exact fun p' hdrs' header' hreq' => clientAddr_eq hreq' hsplit peer
  · rintro (rfl | hplain)
    · exact named_of_plain hfits hes
    · exact named_of_plain hfits hplain

/-- The Forwarded header alone is trusted. -/
def onlyForwarded : ProxyHeader := ⟨false, true, false⟩

/-- A request that carries nothing but the header. -/
def forwardedRequest (value : Str) (h : validate (str "Forwarded") value = true) : HeaderSet :=
  HeaderSet.create.add ⟨str "Forwarded", value, h⟩

/-- An element for an address that begins with the host of the request. -/
def hostElement (host : Str) (a : Str) : Element :=
  ⟨[some ⟨str "host", .quoted (host.map (⟨false, ·⟩))⟩], str "for", .token a, []⟩

theorem hostElement_valid {host a : Str} (hhost : chr '"' ∉ host ∧ chr '\\' ∉ host)
    (ha : IsToken a) : (hostElement host a).Valid a where
  before := by
    intro pair hpair q hq
    rw [List.mem_singleton.mp hpair, Option.mem_some_iff] at hq
    subst hq
    have hname : IsToken (str "host") ∧ isFor (str "host") = false :=
      ⟨⟨by decide, List.all_eq_true.mp rfl⟩, by decide⟩
    refine ⟨⟨hname.1, ?_⟩, hname.2⟩
    intro c hc
    obtain ⟨b, hb, rfl⟩ := List.mem_map.mp hc
    refine Or.inr ⟨?_, ?_⟩
    · rintro rfl
      exact hhost.1 hb
    · rintro rfl
      exact hhost.2 hb
  after := by
    intro pair hpair
    cases hpair
  name := by
    have hname : IsToken (str "for") ∧ isFor (str "for") = true :=
      ⟨⟨by decide, List.all_eq_true.mp rfl⟩, by decide⟩
    exact hname
  value := ha
  node := .host ha

theorem hostElement_plain {host a : Str} (hhost : chr ';' ∉ host) : (hostElement host a).Plain where
  before := by
    intro pair hpair
    rw [List.mem_singleton.mp hpair]
    refine ⟨_, rfl, ?_⟩
    rw [Value.text, List.map_map]
    exact (List.map_id host).symm ▸ hhost
  value := by
    intro chars hchars
    cases hchars

/-- A value that a client began with an open quote. -/
def forgedText : Str := str "for=6.6.6.6, \""

/-- What two proxies append. -/
def twoElements : List Str :=
  [(hostElement (str "a.b") (str "1.2.3.4")).render, (hostElement (str "c") (str "5.6.7.8")).render]

/-- The element of a proxy that passes on the host of the client, with a semicolon in it. -/
def forgedElement : Str := (hostElement (str "a;for=6.6.6.6") (str "1.2.3.4")).render

theorem token_address : IsToken (str "1.2.3.4") := ⟨by decide, List.all_eq_true.mp rfl⟩

theorem forgedElement_appended :
    List.Forall₂ (AppendedFor true) [str "1.2.3.4"] [forgedElement] :=
  .cons ⟨_, hostElement_valid (by decide) token_address, rfl⟩ .nil

theorem forgedElement_request :
    Request true none [forgedElement] (forwardedRequest forgedElement (by decide +kernel))
      onlyForwarded :=
  ⟨rfl, rfl, by decide, by decide +kernel, by decide +kernel, by decide +kernel⟩

/-- The first proxy saw the address, whatever stands before its element; but the element with a
semicolon in the host does not name it. -/
theorem clientAddr_iff_host :
    clientAddr (forwardedRequest ((appended (some forgedText) twoElements).getD [])
        (by decide +kernel)) ⟨2, onlyForwarded⟩ ⟨str "::1", none⟩ = some (str "1.2.3.4") ∧
      ¬ FirstNamed true (str "::1") [forgedElement] (str "1.2.3.4") := by
  have has : List.Forall₂ (AppendedFor true) [str "1.2.3.4", str "5.6.7.8"] twoElements :=
    .cons ⟨_, hostElement_valid (by decide) token_address, rfl⟩
      (.cons ⟨_, hostElement_valid (by decide) ⟨by decide, List.all_eq_true.mp rfl⟩, rfl⟩ .nil)
  have hplain : List.Forall₂ (AppendedPlain true) [str "1.2.3.4", str "5.6.7.8"] twoElements :=
    .cons ⟨_, hostElement_valid (by decide) token_address, hostElement_plain (by decide), rfl⟩
      (.cons ⟨_, hostElement_valid (by decide) ⟨by decide, List.all_eq_true.mp rfl⟩,
        hostElement_plain (by decide), rfl⟩ .nil)
  have hreq : Request true (some forgedText) twoElements
      (forwardedRequest ((appended (some forgedText) twoElements).getD []) (by decide +kernel))
      onlyForwarded :=
    ⟨rfl, rfl, by decide, by decide +kernel, by decide +kernel, by decide +kernel⟩
  obtain ⟨hiff, -, -, hnamed⟩ := clientAddr_iff ⟨str "::1", none⟩ has hreq
  obtain ⟨hforged, -⟩ :=
    clientAddr_iff ⟨str "::1", none⟩ forgedElement_appended forgedElement_request
  exact ⟨hiff.mpr (hnamed (Or.inr hplain)), fun h => absurd (hforged.mpr h) (by decide +kernel)⟩

/-- The host that the client sent contains a semicolon: the address behind it is
taken for the client's, although the header is appended by the trusted proxy. -/
theorem clientAddr_forged :
    ¬ ∀ (rfc7239 : Bool) (p : Option Str) (as es : List Str) (hdrs : HeaderSet)
      (header : ProxyHeader) (peer : RemoteEntry),
      List.Forall₂ (AppendedFor rfc7239) as es → Request rfc7239 p es hdrs header →
        clientAddr hdrs ⟨es.length, header⟩ peer = some (as.headD peer.addr) := by
  intro h
  have hforged := h true none [str "1.2.3.4"] [forgedElement] _ onlyForwarded ⟨str "::1", none⟩
    forgedElement_appended forgedElement_request
  exact absurd hforged (by decide +kernel)

end Swad.TrustedElements
