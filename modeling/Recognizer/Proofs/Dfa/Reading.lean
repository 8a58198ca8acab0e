import Recognizer.Dfa.Document
import Recognizer.Proofs.Dfa.Parts
import Recognizer.Proofs.Document.WellFormed

/-!
# Which listings can be read as deterministic automata

Listings are read alike however their states are written, as long as different states get different
numbers (`Dfa.exists_ofListingBy`). Numbers stand for themselves. Member lists are first turned into the
sets they hold, and a set stands for its place among those that are declared; so a listing of member
lists must not declare a set twice (`Dfa.ofListing_deterministic`).
-/

namespace Recognizer

set_option autoImplicit false

namespace Document

variable {S T : Type}

/-! ## Other names for states -/

def Edge.map (f : S → T) (e : Edge S) : Edge T := ⟨f e.source, f e.target, e.symbol⟩

def Listing.map (f : S → T) (d : Listing S) : Listing T where
  states := d.states.map f
  alphabet := d.alphabet
  initial := f d.initial
  finals := d.finals.map f
  edges := d.edges.map (Edge.map f)

theorem Listing.symbols_map (f : S → T) (d : Listing S) : (d.map f).symbols = d.symbols := by
  rw [symbols_eq, symbols_eq, alphabetTexts, alphabetTexts, map, List.filterMap_map]
  rfl

end Document

namespace Dfa

open Document (Edge Listing IsSymbol)

variable {S T : Type} {resolve : S → Except Flaw State} {R : S → State → Prop} {d : Listing S} {D : Dfa}

/-! ## The parts of a listing -/

/-- The move that an edge stands for. -/
def edgeMove (resolve : S → Except Flaw State) (e : Edge S) : Except Flaw Move := do
  let s ← resolve e.source
  let t ← resolve e.target
  match e.symbol with
  | none => throw (.silentMove s t)
  | some text =>
    let c ← Document.symbol text
    return ((s, c), t)

def partsBy (resolve : S → Except Flaw State) (d : Listing S) : Parts where
  alphabet := d.symbols
  start := resolve d.initial
  states := d.states.map resolve
  moves := d.edges.map (edgeMove resolve)
  finals := d.finals.map resolve

theorem addEdge_eq_bind (D : Dfa) (e : Edge S) :
    addEdge resolve D e = edgeMove resolve e >>= D.addMove := by
  unfold addEdge edgeMove
  cases resolve e.source with
  | error m => rfl
  | ok s =>
    cases resolve e.target with
    | error m => rfl
    | ok t =>
      cases e.symbol with
      | none => rfl
      | some text =>
        show (Document.symbol text >>= fun c => D.addTransition s c t) =
          (Document.symbol text >>= fun c => pure ((s, c), t)) >>= D.addMove
        cases Document.symbol text <;> rfl

theorem ofListingBy_eq_assemble (resolve : S → Except Flaw State) (d : Listing S) :
    ofListingBy resolve d = (partsBy resolve d).assemble := by
  have hstate : ∀ x ∈ d.states, ∀ D, declareState resolve D x = (resolve x).map D.addState :=
    fun x _ D => by
      unfold declareState
      cases resolve x <;> rfl
  have hfinal : ∀ x ∈ d.finals, ∀ D, declareFinal resolve D x = (resolve x).map D.addFinal :=
    fun x _ D => by
      unfold declareFinal
      cases resolve x <;> rfl
  unfold ofListingBy Parts.assemble Parts.draft partsBy
  simp only [List.foldlM_map, foldlM_congr hstate, foldlM_congr hfinal, bind_assoc,
    foldlM_congr fun e _ D => addEdge_eq_bind D e]

theorem partsBy_map (resolve : T → Except Flaw State) (f : S → T) (d : Listing S) :
    partsBy resolve (d.map f) = partsBy (fun x => resolve (f x)) d := by
  unfold partsBy
  rw [Listing.symbols_map]
  simp only [Listing.map, List.map_map]
  rfl

theorem edgeMove_eq_ok {e : Edge S} {n : Move} : edgeMove resolve e = .ok n ↔
    resolve e.source = .ok n.1.1 ∧ e.symbol = some n.1.2.toString ∧ resolve e.target = .ok n.2 := by
  obtain ⟨⟨q, c⟩, t⟩ := n
  unfold edgeMove
  constructor
  · intro h
    obtain ⟨s, hs, h⟩ := bind_eq_ok.mp h
    obtain ⟨u, hu, h⟩ := bind_eq_ok.mp h
    cases he : e.symbol with
    | none =>
      rw [he] at h
      cases h
    | some text =>
      rw [he] at h
      obtain ⟨c', hc, h⟩ := bind_eq_ok.mp h
      cases h
      exact ⟨hs, congrArg some (Document.symbol_eq_ok.mp hc), hu⟩
  · rintro ⟨hs, he, ht⟩
    rw [hs, ht, he, ok_bind, ok_bind]
    show Document.symbol c.toString >>= _ = _
    rw [Document.symbol_toString]
    rfl

/-! ## Which listings are read -/

/-- What a listing says of symbols and states is so in the automaton, where `R x q` says that `x` is
written for the state `q`. -/
structure Describes (d : Listing S) (R : S → State → Prop) (D : Dfa) : Prop where
  alphabet : ∀ c : Symbol, c ∈ D.alphabet ↔ c.toString ∈ d.alphabetTexts
  start : R d.initial D.start
  states : ∀ q, q ∈ D.states ↔ ∃ x ∈ d.states, R x q
  finals : ∀ q, q ∈ D.finals ↔ ∃ x ∈ d.finals, R x q
  next : ∀ q c t, D.next? q c = some t ↔
    ∃ e ∈ d.edges, R e.source q ∧ e.symbol = some c.toString ∧ R e.target t

theorem settled_of_deterministic (h : d.Deterministic)
    (hd : ∀ x ∈ d.states, ∃ q, resolve x = .ok q) : (partsBy resolve d).Settled := by
  have hmove : ∀ e ∈ d.edges, ∃ n, edgeMove resolve e = .ok n := by
    intro e he
    obtain ⟨s, hs⟩ := hd _ (h.ends e he).1
    obtain ⟨t, ht⟩ := hd _ (h.ends e he).2
    obtain ⟨x, hx⟩ := Option.ne_none_iff_exists'.mp (h.audible e he)
    obtain ⟨c, rfl⟩ := h.symbols e he x hx
    exact ⟨((s, c), t), edgeMove_eq_ok.mpr ⟨hs, hx, ht⟩⟩
  have hA : ∃ A, d.symbols = .ok A :=
    d.symbols_eq ▸ Document.exists_alphabet (Listing.wellFormed_iff.mp h.toWellFormed).1.1
  exact ⟨hA, hd _ h.initial, List.forall_mem_map.mpr hd,
    List.forall_mem_map.mpr hmove, List.forall_mem_map.mpr fun x hx => hd x (h.finals x hx)⟩

section
variable (hr : ∀ x q, resolve x = .ok q ↔ R x q)
include hr

theorem mem_moves_partsBy {n : Move} : .ok n ∈ (partsBy resolve d).moves ↔
    ∃ e ∈ d.edges, R e.source n.1.1 ∧ e.symbol = some n.1.2.toString ∧ R e.target n.2 := by
  simp only [partsBy, List.mem_map, edgeMove_eq_ok, hr]

theorem describes_of_makeUp (h : (partsBy resolve d).MakeUp D) : Describes d R D where
  alphabet := (Document.alphabet_eq_ok.mp (d.symbols_eq ▸ h.alphabet)).2
  start := (hr _ _).mp h.start
  states q := by
    rw [h.states]
    simp only [partsBy, List.mem_map, hr]
  finals q := by
    rw [h.finals]
    simp only [partsBy, List.mem_map, hr]
  next q c t := by rw [next?, OrderedMap.get?_eq_some, h.moves, mem_moves_partsBy hr]

theorem describes_ofListingBy (h : ofListingBy resolve d = .ok D) :
    Describes d R D ∧ D.members = none := by
  rw [ofListingBy_eq_assemble] at h
  have hmake := Parts.makeUp_of_draft (Parts.assemble_eq_ok.mp h).1
  exact ⟨describes_of_makeUp hr hmake, hmake.members⟩

theorem closed_of_wellFormed (h : d.WellFormed) : (partsBy resolve d).Closed := by
  refine ⟨fun q hq => List.mem_map.mpr ⟨_, h.initial, hq⟩, fun q hq => ?_, fun n hn => ?_⟩
  · obtain ⟨x, hx, hxq⟩ := List.mem_map.mp hq
    exact List.mem_map.mpr ⟨x, h.finals x hx, hxq⟩
  · obtain ⟨e, he, hs, -, ht⟩ := (mem_moves_partsBy hr).mp hn
    exact ⟨List.mem_map.mpr ⟨_, (h.ends e he).1, (hr _ _).mpr hs⟩,
      List.mem_map.mpr ⟨_, (h.ends e he).2, (hr _ _).mpr ht⟩⟩

variable (hinj : ∀ x y q, R x q → R y q → x = y)
include hinj

theorem wellFormed_of_sound (hs : (partsBy resolve d).Sound) (hc : (partsBy resolve d).Closed) :
    d.WellFormed := by
  obtain ⟨A, hA⟩ : ∃ A, d.symbols = .ok A := hs.alphabet
  obtain ⟨htexts, hmem⟩ := Document.alphabet_eq_ok.mp (d.symbols_eq ▸ hA)
  have hdeclared : ∀ x q, resolve x = .ok q → .ok q ∈ d.states.map resolve → x ∈ d.states := by
    intro x q hx hq
    obtain ⟨y, hy, hyq⟩ := List.mem_map.mp hq
    exact hinj y x q ((hr y q).mp hyq) ((hr x q).mp hx) ▸ hy
  have hedges : ∀ e ∈ d.edges, ∃ n, edgeMove resolve e = .ok n ∧ .ok n ∈ (partsBy resolve d).moves := by
    intro e he
    obtain ⟨n, hn⟩ := hs.moves _ (List.mem_map_of_mem he)
    exact ⟨n, hn, List.mem_map.mpr ⟨e, he, hn⟩⟩
  refine Listing.wellFormed_iff.mpr ⟨⟨htexts, fun e he x hx => ?_⟩, ?_, fun x hx => ?_, fun e he => ?_⟩
  · obtain ⟨n, hn, hmove⟩ := hedges e he
    rw [Option.some.inj (hx.symm.trans (edgeMove_eq_ok.mp hn).2.1)]
    exact (hmem _).mp (hs.symbols A hA n hmove)
  · obtain ⟨q, hq⟩ := hs.start
    exact hdeclared _ q hq (hc.start q hq)
  · obtain ⟨q, hq⟩ := hs.finals _ (List.mem_map_of_mem hx)
    exact hdeclared x q hq (hc.finals q (List.mem_map.mpr ⟨x, hx, hq⟩))
  · obtain ⟨n, hn, hmove⟩ := hedges e he
    obtain ⟨hsource, -, htarget⟩ := edgeMove_eq_ok.mp hn
    exact ⟨hdeclared _ _ hsource (hc.ends n hmove).1, hdeclared _ _ htarget (hc.ends n hmove).2⟩

theorem deterministic_of_sound (hs : (partsBy resolve d).Sound) (hc : (partsBy resolve d).Closed) :
    d.Deterministic := by
  refine ⟨wellFormed_of_sound hr hinj hs hc, fun e he hnone => ?_, fun e he f hf hsource hsymbol => ?_⟩
  · obtain ⟨n, hn⟩ := hs.moves _ (List.mem_map_of_mem he)
    cases hnone.symm.trans (edgeMove_eq_ok.mp hn).2.1
  · obtain ⟨n, hn⟩ := hs.moves _ (List.mem_map_of_mem he)
    obtain ⟨k, hk⟩ := hs.moves _ (List.mem_map_of_mem hf)
    obtain ⟨hn₁, hnc, hn₂⟩ := edgeMove_eq_ok.mp hn
    obtain ⟨hk₁, hkc, hk₂⟩ := edgeMove_eq_ok.mp hk
    rw [hsource, hk₁] at hn₁
    rw [hsymbol, hkc] at hnc
    have hkey : n.1 = k.1 := Prod.ext (Except.ok.inj hn₁).symm
      (Document.toString_injective (Option.some.inj hnc)).symm
    have htarget : n.2 = k.2 := hs.agree n (mem_results.mpr (List.mem_map.mpr ⟨e, he, hn⟩)) k
      (mem_results.mpr (List.mem_map.mpr ⟨f, hf, hk⟩)) hkey
    exact hinj _ _ n.2 ((hr _ _).mp hn₂) (htarget ▸ (hr _ _).mp hk₂)

theorem sound_of_deterministic (h : d.Deterministic)
    (hd : ∀ x ∈ d.states, ∃ q, resolve x = .ok q) : (partsBy resolve d).Sound := by
  refine ⟨settled_of_deterministic h hd, fun A hA n hn => ?_, fun n hn k hk hkey => ?_⟩
  · obtain ⟨e, he, -, hsymbol, -⟩ := (mem_moves_partsBy hr).mp hn
    have hused := (Listing.wellFormed_iff.mp h.toWellFormed).1.2 e he _ hsymbol
    exact ((Document.alphabet_eq_ok.mp (d.symbols_eq ▸ hA)).2 _).mpr hused
  · obtain ⟨e, he, hns, hnc, hnt⟩ := (mem_moves_partsBy hr).mp (mem_results.mp hn)
    obtain ⟨f, hf, hks, hkc, hkt⟩ := (mem_moves_partsBy hr).mp (mem_results.mp hk)
    have htarget : e.target = f.target := h.functional e he f hf
      (hinj _ _ n.1.1 hns (hkey ▸ hks)) (hnc.trans (hkey ▸ hkc.symm))
    have hsame := (hr _ _).mpr hnt
    rw [htarget, (hr _ _).mpr hkt] at hsame
    exact (Except.ok.inj hsame).symm

/-- Where different states get different numbers, a listing is read just when it is deterministic and
its declared states get numbers at all. -/
theorem exists_ofListingBy : (∃ D, ofListingBy resolve d = .ok D) ↔
    d.Deterministic ∧ ∀ x ∈ d.states, ∃ q, resolve x = .ok q := by
  rw [ofListingBy_eq_assemble, Parts.exists_assemble]
  constructor
  · rintro ⟨hs, hc⟩
    exact ⟨deterministic_of_sound hr hinj hs hc, fun x hx => hs.states _ (List.mem_map_of_mem hx)⟩
  · rintro ⟨h, hd⟩
    exact ⟨sound_of_deterministic hr hinj h hd, closed_of_wellFormed hr h.toWellFormed⟩

end

/-! ## Member lists -/

/-- A listing with member lists replaced by the sets they hold. -/
def sets (d : Listing (List State)) : Listing StateSet := d.map SortedSet.ofList

def memberParts (d : Listing (List State)) : Parts :=
  partsBy (Document.locate shownMembers (sets d).states) (sets d)

theorem ofMemberListing_eq_assemble (d : Listing (List State)) : ofMemberListing d = do
    Document.declare shownMembers (sets d).states
    let D ← (memberParts d).assemble
    return { D with members := some (sets d).states } := by
  unfold ofMemberListing memberParts sets
  simp only [ofListingBy_eq_assemble, partsBy_map]
  rfl

theorem ofMemberListing_eq_ok {d : Listing (List State)} : ofMemberListing d = .ok D ↔
    (sets d).states.Nodup ∧ ∃ E, ofListingBy (Document.locate shownMembers (sets d).states) (sets d) =
      .ok E ∧ D = { E with members := some (sets d).states } := by
  rw [ofMemberListing_eq_assemble, ofListingBy_eq_assemble]
  constructor
  · intro h
    obtain ⟨u, hu, h⟩ := bind_eq_ok.mp h
    obtain ⟨E, hE, h⟩ := bind_eq_ok.mp h
    cases h
    exact ⟨Document.declare_eq_ok_iff.mp hu, E, hE, rfl⟩
  · rintro ⟨hn, E, hE, rfl⟩
    rw [Document.declare_eq_ok_iff.mpr hn, ok_bind, memberParts, hE]
    rfl

theorem exists_ofMemberListing {d : Listing (List State)} :
    (∃ D, ofMemberListing d = .ok D) ↔ (sets d).Deterministic ∧ (sets d).states.Nodup := by
  have hread : (sets d).states.Nodup →
      ((∃ E, ofListingBy (Document.locate shownMembers (sets d).states) (sets d) = .ok E) ↔
        (sets d).Deterministic) := fun hn => by
    rw [exists_ofListingBy (fun x q => Document.locate_eq_ok_iff hn)
      fun x y q hx hy => Option.some.inj (hx.symm.trans hy)]
    exact and_iff_left fun x hx => Document.exists_locate.mpr hx
  constructor
  · rintro ⟨D, h⟩
    obtain ⟨hn, E, hE, -⟩ := ofMemberListing_eq_ok.mp h
    exact ⟨(hread hn).mp ⟨E, hE⟩, hn⟩
  · rintro ⟨h, hn⟩
    obtain ⟨E, hE⟩ := (hread hn).mpr h
    exact ⟨_, ofMemberListing_eq_ok.mpr ⟨hn, E, hE, rfl⟩⟩

theorem describes_ofMemberListing {d : Listing (List State)} (h : ofMemberListing d = .ok D) :
    Describes (sets d) (fun S q => (sets d).states[q]? = some S) D ∧
      D.members = some (sets d).states := by
  obtain ⟨hn, E, hE, rfl⟩ := ofMemberListing_eq_ok.mp h
  obtain ⟨hdesc, -⟩ := describes_ofListingBy (fun x q => Document.locate_eq_ok_iff hn) hE
  exact ⟨⟨hdesc.alphabet, hdesc.start, hdesc.states, hdesc.finals, hdesc.next⟩, rfl⟩

/-! ## Both spellings -/

/-- A listing is read without complaint just when it is deterministic; with member lists, all that
matters is the sets they hold, and none of these may be declared twice. States written as numbers keep
their numbers. A set gets its place among the declared ones as its number, and is found by it. -/
theorem ofListing_deterministic :
    (∀ d : Listing State, ((∃ D, ofListing d = .ok D) ↔ d.Deterministic) ∧
      ∀ D, ofListing d = .ok D → Describes d Eq D ∧ D.members = none) ∧
    (∀ d d' : Listing (List State), sets d = sets d' → ofMemberListing d = ofMemberListing d') ∧
    ∀ d : Listing (List State),
      ((∃ D, ofMemberListing d = .ok D) ↔ (sets d).Deterministic ∧ (sets d).states.Nodup) ∧
      ∀ D, ofMemberListing d = .ok D →
        Describes (sets d) (fun S q => (sets d).states[q]? = some S) D ∧
          D.members = some (sets d).states := by
  refine ⟨fun d => ⟨?_, fun D hD => ?_⟩, fun d d' h => ?_, fun d => ⟨exists_ofMemberListing,
    fun D hD => describes_ofMemberListing hD⟩⟩
  · rw [ofListing, exists_ofListingBy (R := Eq) (fun x q => by rw [Except.ok.injEq])
      fun x y q hx hy => hx.trans hy.symm]
    exact and_iff_left fun x _ => ⟨x, rfl⟩
  · exact describes_ofListingBy (fun x q => by rw [Except.ok.injEq]) hD
  · rw [ofMemberListing_eq_assemble, ofMemberListing_eq_assemble, memberParts, memberParts, h]

/-- One set is written in several ways, and so is one transition; numbers need not come in order. -/
theorem ofListing_deterministic_spellings :
    let d : Listing State := ⟨[7, 3, 7], none, 7, [3], [⟨7, 3, some "a"⟩, ⟨7, 3, some "a"⟩]⟩
    let e : Listing (List State) := ⟨[[2], [1, 0]], none, [1, 0, 1], [[2, 2]],
      [⟨[0, 1], [2], some "a"⟩, ⟨[1, 0], [2, 2], some "a"⟩]⟩
    let e' : Listing (List State) := ⟨[[2], [0, 1]], none, [0, 1], [[2]],
      [⟨[0, 1], [2], some "a"⟩, ⟨[0, 1], [2], some "a"⟩]⟩
    (∃ D, ofListing d = .ok D ∧ D.start = 7 ∧ D.next? 7 'a' = some 3) ∧
      ofMemberListing e = ofMemberListing e' ∧ (sets e).Deterministic ∧
        ∃ D, ofMemberListing e = .ok D ∧ D.next? 1 'a' = some 0 ∧
          D.members? 1 = some (SortedSet.ofList [0, 1]) := by
  intro d e e'
  obtain ⟨hnumbers, hsets, hmembers⟩ := ofListing_deterministic
  obtain ⟨D, hD⟩ : ∃ D, ofListing d = .ok D := ⟨_, rfl⟩
  obtain ⟨E, hE⟩ : ∃ E, ofMemberListing e = .ok E := ⟨_, rfl⟩
  obtain ⟨hd, -⟩ := (hnumbers d).2 D hD
  obtain ⟨he, hnames⟩ := (hmembers e).2 E hE
  refine ⟨⟨D, hD, hd.start.symm, (hd.next 7 'a' 3).mpr ?_⟩, hsets e e' (by decide),
    ((hmembers e).1.mp ⟨E, hE⟩).1, E, hE, (he.next 1 'a' 0).mpr ?_, ?_⟩
  · exact ⟨_, List.mem_cons_self, rfl, rfl, rfl⟩
  · exact ⟨_, List.mem_cons_self, by decide, rfl, by decide⟩
  · rw [members?, hnames]
    decide

end Dfa

end Recognizer
