import Mathlib.Algebra.Order.BigOperators.Group.List
import Mathlib.Algebra.Order.Group.Nat
import NeverD.Evm.AbiParser

namespace NeverD.Evm.Abi
open List
open Option (some bind_eq_bind bind_some bind_eq_some_iff)

variable {m : Member} {nodes : Nat} {c : Char} {members : List Member} {name : List Char}

namespace Parser

variable {p q : Parser}

lemma consume_cons {rest : List Char} {dimensions : Nat} :
    consume c ⟨c :: rest, nodes, dimensions⟩ = some ⟨rest, nodes, dimensions⟩ := by
  unfold consume
  simp

lemma consume_other (h : ∀ tail, p.rest ≠ c :: tail) : p.consume c = none := by
  unfold consume
  split
  · rfl
  next d rest hrest =>
    rw [if_pos]
    intro hd
    exact h rest (by rw [hrest, hd])

lemma consume_some (h : p.consume c = some q) : p.rest = c :: q.rest ∧ q.typeNodes = p.typeNodes ∧
    q.arrayDimensions = p.arrayDimensions := by
  unfold consume at h
  split at h
  · cases h
  next d rest hrest =>
    split at h
    · cases h
    next hd =>
      rw [← some.inj h, hrest, not_not.mp hd]
      exact ⟨rfl, rfl, rfl⟩

lemma slice_eq {text : List Char} (h : p.rest = text ++ q.rest) : slice p q = text := by
  unfold slice
  rw [h, length_append, Nat.add_sub_cancel, take_left]

end Parser

def Stops (rest : List Char) : Prop := ∀ c tail, rest = c :: tail → c = ',' ∨ c = ')'

lemma IsType.starts {levels : Nat} (h : IsType levels m) :
    ∃ c tail, m.text = c :: tail ∧ (c.isAlphanum = true ∨ c = '(') := by
  induction h with
  | elementary name h =>
    obtain ⟨hne, hall⟩ := h.alphanumeric
    cases name with
    | nil => exact (hne rfl).elim
    | cons c tail => exact ⟨c, tail, rfl, .inl (hall c mem_cons_self)⟩
  | tuple members h ih => exact ⟨'(', _, rfl, .inr rfl⟩
  | array dimension h hdimension ih =>
    obtain ⟨c, tail, htext, hc⟩ := ih
    exact ⟨c, tail ++ '[' :: (dimension ++ [']']), by rw [htext]; rfl, hc⟩

lemma IsType.nodes_pos {levels : Nat} (h : IsType levels m) : 1 ≤ m.nodes := by
  induction h with
  | elementary name h => exact Nat.le_refl 1
  | tuple members h ih => exact Nat.le_add_right 1 _
  | array dimension h hdimension ih => exact ih

lemma length_le_nodesOf {levels : Nat} (h : ∀ m ∈ members, IsType levels m) :
    members.length ≤ nodesOf members := by
  induction members with
  | nil => exact Nat.le_refl 0
  | cons m members ih =>
    have hm := (h m mem_cons_self).nodes_pos
    have hrest := ih fun m' hm' => h m' (mem_cons_of_mem _ hm')
    unfold nodesOf at *
    rw [map_cons, sum_cons, length_cons]
    omega

lemma joinComma_cons (text : List Char) {rest : List (List Char)} (h : rest ≠ []) :
    joinComma (text :: rest) = text ++ ',' :: joinComma rest := by
  cases rest with
  | nil => exact (h rfl).elim
  | cons t rest => rfl

namespace Parser

def Completes (type : Parser → Option Parser) (m : Member) : Prop :=
  ∀ p rest, p.rest = m.text ++ rest → Stops rest → p.typeNodes + m.nodes ≤ maxABITypeNodes →
    p.arrayDimensions + m.dimensions ≤ maxABIArrayDimensions →
    type p = some ⟨rest, p.typeNodes + m.nodes, p.arrayDimensions + m.dimensions⟩

variable {type : Parser → Option Parser} {p : Parser} {rest : List Char} {fuel dimensions : Nat}
  {texts : List (List Char)}

lemma parseMembers_complete (hne : members ≠ [])
    (htype : ∀ m ∈ members, Completes type m) (hfuel : members.length ≤ fuel)
    (hrest : p.rest = joinComma (textsOf members) ++ ')' :: rest)
    (hnodes : p.typeNodes + nodesOf members ≤ maxABITypeNodes)
    (hdimensions : p.arrayDimensions + dimensionsOf members ≤ maxABIArrayDimensions) :
    parseMembers type ')' fuel p = some (textsOf members,
      ⟨rest, p.typeNodes + nodesOf members, p.arrayDimensions + dimensionsOf members⟩) := by
  induction members generalizing fuel p with
  | nil => exact (hne rfl).elim
  | cons m members ih =>
    obtain ⟨fuel, rfl⟩ : ∃ n, fuel = n + 1 := ⟨fuel - 1, by rw [length_cons] at hfuel; omega⟩
    have hm := htype m mem_cons_self
    have hsumNodes : nodesOf (m :: members) = m.nodes + nodesOf members := rfl
    have hsumDimensions : dimensionsOf (m :: members) = m.dimensions + dimensionsOf members := rfl
    rw [hsumNodes] at hnodes ⊢
    rw [hsumDimensions] at hdimensions ⊢
    unfold parseMembers
    by_cases hlast : members = []
    · subst hlast
      have hparse := hm p (')' :: rest) hrest (fun c tail h => .inr (List.cons.inj h).1.symm)
        (by omega) (by omega)
      rw [hparse]
      simp only [bind_eq_bind, bind_some]
      rw [consume_cons]
      rw [slice_eq hrest]
      rfl
    · have htext : p.rest = m.text ++ ',' :: (joinComma (textsOf members) ++ ')' :: rest) := by
        rw [hrest]
        change joinComma (m.text :: textsOf members) ++ _ = _
        rw [joinComma_cons _ (by simpa [textsOf] using hlast), append_assoc]
        rfl
      have hparse :=
        hm p _ htext (fun c tail h => .inl (List.cons.inj h).1.symm) (by omega) (by omega)
      rw [hparse]
      simp only [bind_eq_bind, bind_some]
      rw [consume_other (by intro tail h; cases h), consume_cons]
      simp only [bind_some]
      rw [ih hlast (fun m' hm' => htype m' (mem_cons_of_mem _ hm'))
        (by rw [length_cons] at hfuel; omega) rfl (by dsimp only; omega) (by dsimp only; omega)]
      simp only [bind_some]
      rw [slice_eq htext, add_assoc, add_assoc]
      rfl

lemma parseDimensions_step {dimension : List Char}
    (hdimension : dimension = [] ∨ ∃ n, dimension = decimal n)
    (hroom : dimensions < maxABIArrayDimensions) :
    parseDimensions (fuel + 1) ⟨'[' :: (dimension ++ ']' :: rest), nodes, dimensions⟩ =
      parseDimensions fuel ⟨rest, nodes, dimensions + 1⟩ := by
  have hdigits : ∀ c ∈ dimension, c.isDigit = true := by
    intro c hc
    rcases hdimension with hnil | ⟨n, hn⟩
    · rw [hnil] at hc
      cases hc
    · rw [hn] at hc
      exact all_eq_true.mp (digits_decimal n) c hc
  have htake : (dimension ++ ']' :: rest).takeWhile Char.isDigit = dimension := by
    rw [takeWhile_append_of_pos hdigits, takeWhile_cons_of_neg (by decide), append_nil]
  have hdrop : (dimension ++ ']' :: rest).dropWhile Char.isDigit = ']' :: rest := by
    rw [dropWhile_append_of_pos hdigits, dropWhile_cons_of_neg (by decide)]
  rw [parseDimensions, consume_cons]
  dsimp only
  unfold chargeDimension
  rw [if_neg (by dsimp only; omega)]
  simp only [bind_eq_bind, bind_some]
  rw [htake, hdrop, if_neg, consume_cons]
  · rfl
  · intro h
    rcases hdimension with hnil | ⟨n, hn⟩
    · exact h.1 hnil
    · rw [hn, isCanonicalUnsignedDecimal_decimal] at h
      cases h.2

lemma parseDimensions_stop {rest : List Char} (hstop : ∀ tail, rest ≠ '[' :: tail)
    {fuel dimensions : Nat} :
    parseDimensions (fuel + 1) ⟨rest, nodes, dimensions⟩ = some ⟨rest, nodes, dimensions⟩ := by
  rw [parseDimensions, consume_other hstop]

lemma parseElementary_complete (h : Elementary name) (hstop : ∀ c tail, rest = c :: tail →
    c.isAlphanum = false) :
    parseElementary ⟨name ++ rest, nodes, dimensions⟩ = some ⟨rest, nodes, dimensions⟩ := by
  obtain ⟨hne, hall⟩ := h.alphanumeric
  have htake : (name ++ rest).takeWhile Char.isAlphanum = name := by
    rw [takeWhile_append_of_pos hall]
    cases rest with
    | nil => simp
    | cons c tail => rw [takeWhile_cons_of_neg (by simp [hstop c tail rfl]), append_nil]
  have hdrop : (name ++ rest).dropWhile Char.isAlphanum = rest := by
    rw [dropWhile_append_of_pos hall]
    cases rest with
    | nil => simp
    | cons c tail => rw [dropWhile_cons_of_neg (by simp [hstop c tail rfl])]
  unfold parseElementary
  rw [htake, hdrop, if_neg]
  intro hor
  rcases hor with h' | h'
  · exact hne h'
  · rw [isCanonicalElementaryABIType_iff.mpr h] at h'
    cases h'

lemma chargeNode_some (h : nodes < maxABITypeNodes) :
    chargeNode ⟨rest, nodes, dimensions⟩ = some ⟨rest, nodes + 1, dimensions⟩ := by
  unfold chargeNode
  rw [if_neg (by dsimp only; omega)]

lemma not_paren_of_alphanum (h : c.isAlphanum = true) : c ≠ '(' ∧ c ≠ ')' ∧ c ≠ ',' ∧ c ≠ '[' := by
  refine ⟨?_, ?_, ?_, ?_⟩ <;> (intro hc; rw [hc] at h; cases h)

theorem parseTypeWith_elementary (tuple : Parser → Option Parser) (h : Elementary name)
    (hstop : ∀ c tail, rest = c :: tail → c.isAlphanum = false) (hnodes : nodes < maxABITypeNodes) :
    parseTypeWith tuple ⟨name ++ rest, nodes, dimensions⟩ =
      parseDimensions (maxABIArrayDimensions + 1) ⟨rest, nodes + 1, dimensions⟩ := by
  have hparen : ∀ tail, name ++ rest ≠ '(' :: tail := by
    intro tail heq
    obtain ⟨hne, hall⟩ := h.alphanumeric
    cases name with
    | nil => exact hne rfl
    | cons c name => exact (not_paren_of_alphanum (hall c mem_cons_self)).1 (List.cons.inj heq).1
  unfold parseTypeWith
  rw [chargeNode_some hnodes]
  simp only [bind_eq_bind, bind_some]
  unfold parseBase
  rw [consume_other hparen]
  rw [parseElementary_complete h hstop]
  rfl

lemma parseDelimitedList_complete {type : Parser → Option Parser} {levels : Nat}
    {members : List Member}
    (hmembers : ∀ m ∈ members, IsType levels m) (htype : ∀ m ∈ members, Completes type m)
    {p : Parser} {rest : List Char} (hrest : p.rest = joinComma (textsOf members) ++ ')' :: rest)
    (hnodes : p.typeNodes + nodesOf members ≤ maxABITypeNodes)
    (hdimensions : p.arrayDimensions + dimensionsOf members ≤ maxABIArrayDimensions) :
    parseDelimitedList type ')' p = some (textsOf members,
      ⟨rest, p.typeNodes + nodesOf members, p.arrayDimensions + dimensionsOf members⟩) := by
  unfold parseDelimitedList
  by_cases hnil : members = []
  · subst hnil
    obtain ⟨text, nodes, dimensions⟩ := p
    dsimp only at hrest
    rw [hrest, show joinComma (textsOf []) ++ ')' :: rest = ')' :: rest from rfl, consume_cons]
    rfl
  · have hother : p.consume ')' = none := by
      apply consume_other
      intro tail heq
      cases members with
      | nil => exact hnil rfl
      | cons m members =>
        obtain ⟨c, text, htext, hc⟩ := (hmembers m mem_cons_self).starts
        have hstart : ∃ t, joinComma (textsOf (m :: members)) = c :: t := by
          cases members with
          | nil => exact ⟨text, htext⟩
          | cons m' members => exact ⟨text ++ ',' :: joinComma (textsOf (m' :: members)), by
              change m.text ++ _ = _
              rw [htext]
              rfl⟩
        obtain ⟨t, ht⟩ := hstart
        rw [hrest, ht] at heq
        have hclose : c = ')' := (List.cons.inj heq).1
        rcases hc with hc | hc
        · exact (not_paren_of_alphanum hc).2.1 hclose
        · rw [hc] at hclose
          cases hclose
    have hlength := length_le_nodesOf hmembers
    rw [hother]
    exact parseMembers_complete hnil htype (by omega) hrest hnodes hdimensions

def EntersSuffixes (type : Parser → Option Parser) (m : Member) : Prop :=
  ∀ (p : Parser) (rest : List Char), p.rest = m.text ++ rest →
    (∀ c tail, rest = c :: tail → c.isAlphanum = false) →
    p.typeNodes + m.nodes ≤ maxABITypeNodes →
      p.arrayDimensions + m.dimensions ≤ maxABIArrayDimensions →
    ∃ fuel, maxABIArrayDimensions + 1 ≤ fuel + m.dimensions ∧ type p =
      parseDimensions fuel ⟨rest, p.typeNodes + m.nodes, p.arrayDimensions + m.dimensions⟩

lemma EntersSuffixes.completes (h : EntersSuffixes type m) : Completes type m := by
  intro p rest hrest hstops hnodes hdimensions
  have hend : ∀ c tail, rest = c :: tail → c.isAlphanum = false := by
    intro c tail hc
    rcases hstops c tail hc with h' | h' <;> rw [h'] <;> rfl
  obtain ⟨fuel, hfuel, hparse⟩ := h p rest hrest hend hnodes hdimensions
  obtain ⟨fuel, rfl⟩ : ∃ n, fuel = n + 1 := ⟨fuel - 1, by omega⟩
  rw [hparse]
  apply parseDimensions_stop
  intro tail htail
  rcases hstops _ tail htail with h' | h' <;> cases h'

variable {levels : Nat}

-- The induction is on the derivation. An array is one turn of the loop more.
lemma parseType_enters (h : IsType levels m) : EntersSuffixes (parseType levels) m := by
  induction h with
  | @elementary levels name h =>
    intro p rest hrest hstop hnodes hdimensions
    obtain ⟨text, nodes, dimensions⟩ := p
    dsimp only at hrest hnodes hdimensions ⊢
    refine ⟨maxABIArrayDimensions + 1, le_rfl, ?_⟩
    rw [hrest]
    cases levels with
    | zero => exact parseTypeWith_elementary _ h hstop (by omega)
    | succ levels => exact parseTypeWith_elementary _ h hstop (by omega)
  | @tuple levels members h ih =>
    intro p rest hrest hstop hnodes hdimensions
    obtain ⟨text, nodes, dimensions⟩ := p
    dsimp only at hrest hnodes hdimensions ⊢
    have hcompletes : ∀ m ∈ members, Completes (parseType levels) m :=
      fun m hm => (ih m hm).completes
    refine ⟨maxABIArrayDimensions + 1, Nat.le_add_right _ _, ?_⟩
    have hlist := @parseDelimitedList_complete _ _ members h hcompletes
      ⟨joinComma (textsOf members) ++ ')' :: rest, nodes + 1, dimensions⟩ rest rfl
      (by dsimp only; omega) hdimensions
    have htext : text = '(' :: (joinComma (textsOf members) ++ ')' :: rest) := by
      rw [hrest]
      simp
    rw [htext]
    unfold parseType parseTypeWith
    rw [chargeNode_some (by omega)]
    simp only [bind_eq_bind, bind_some]
    unfold parseBase
    rw [consume_cons]
    dsimp only
    rw [hlist]
    simp only [Option.map_some, bind_some, add_assoc]
  | @array levels m dimension h hdimension ih =>
    intro p rest hrest hstop hnodes hdimensions
    dsimp only at hrest hnodes hdimensions ⊢
    have htext : p.rest = m.text ++ '[' :: (dimension ++ ']' :: rest) := by
      rw [hrest]
      simp
    obtain ⟨fuel, hfuel, hparse⟩ := ih p _ htext (by
      intro c tail hc
      rw [← (List.cons.inj hc).1]
      rfl) hnodes (by omega)
    obtain ⟨fuel, rfl⟩ : ∃ n, fuel = n + 1 := ⟨fuel - 1, by omega⟩
    refine ⟨fuel, by omega, ?_⟩
    rw [hparse, parseDimensions_step hdimension (by omega), add_assoc]

lemma parseType_completes (h : IsType levels m) : Completes (parseType levels) m :=
  (parseType_enters h).completes

structure Parsed (levels : Nat) (p q : Parser) (m : Member) : Prop where
  isType : IsType levels m
  text : p.rest = m.text ++ q.rest
  nodes : q.typeNodes = p.typeNodes + m.nodes
  dimensions : q.arrayDimensions = p.arrayDimensions + m.dimensions
  nodesBound : q.typeNodes ≤ maxABITypeNodes
  dimensionsBound : p.arrayDimensions ≤ maxABIArrayDimensions →
    q.arrayDimensions ≤ maxABIArrayDimensions

structure ParsedAll (levels : Nat) (p q : Parser) (close : List Char) (members : List Member) :
    Prop where
  isType : ∀ m ∈ members, IsType levels m
  text : p.rest = joinComma (textsOf members) ++ (close ++ q.rest)
  nodes : q.typeNodes = p.typeNodes + nodesOf members
  dimensions : q.arrayDimensions = p.arrayDimensions + dimensionsOf members
  nodesBound : p.typeNodes ≤ maxABITypeNodes → q.typeNodes ≤ maxABITypeNodes
  dimensionsBound : p.arrayDimensions ≤ maxABIArrayDimensions →
    q.arrayDimensions ≤ maxABIArrayDimensions

lemma ParsedAll.single {q r : Parser} {close : List Char} (h : Parsed levels p q m)
    (htext : q.rest = close ++ r.rest) (hnodes : r.typeNodes = q.typeNodes)
    (hdimensions : r.arrayDimensions = q.arrayDimensions) : ParsedAll levels p r close [m] := by
  refine ⟨?_, ?_, ?_, ?_, ?_, ?_⟩
  · intro m' hm'
    rw [mem_singleton.mp hm']
    exact h.isType
  · rw [h.text, htext]
    rfl
  · rw [hnodes, h.nodes]
    rfl
  · rw [hdimensions, h.dimensions]
    rfl
  · intro _
    rw [hnodes]
    exact h.nodesBound
  · intro hp
    rw [hdimensions]
    exact h.dimensionsBound hp

lemma ParsedAll.cons {levels : Nat} {p q r s : Parser} {m : Member} {members : List Member}
    {close : List Char}
    (h : Parsed levels p q m) (hcomma : q.consume ',' = some r) (hne : members ≠ [])
    (hrest : ParsedAll levels r s close members) : ParsedAll levels p s close (m :: members) := by
  obtain ⟨htext, hnodes, hdimensions⟩ := consume_some hcomma
  have hsumNodes : nodesOf (m :: members) = m.nodes + nodesOf members := rfl
  have hsumDimensions : dimensionsOf (m :: members) = m.dimensions + dimensionsOf members := rfl
  have h1 := h.nodes
  have h2 := h.dimensions
  have h3 := hrest.nodes
  have h4 := hrest.dimensions
  refine ⟨?_, ?_, by omega, by omega, ?_, ?_⟩
  · intro m' hm'
    rcases mem_cons.mp hm' with hm' | hm'
    · rw [hm']
      exact h.isType
    · exact hrest.isType m' hm'
  · rw [h.text, htext, hrest.text]
    change _ = joinComma (m.text :: textsOf members) ++ _
    rw [joinComma_cons _ (by simpa [textsOf] using hne), append_assoc]
    rfl
  · intro _
    exact hrest.nodesBound (by rw [hnodes]; exact h.nodesBound)
  · intro hp
    exact hrest.dimensionsBound (by rw [hdimensions]; exact h.dimensionsBound hp)

lemma parseMembers_sound (htype : ∀ p q, type p = some q → ∃ m, Parsed levels p q m) {close : Char}
    {q : Parser} (h : parseMembers type close fuel p = some (texts, q)) :
    ∃ members, members ≠ [] ∧ texts = textsOf members ∧ ParsedAll levels p q [close] members := by
  induction fuel generalizing p q texts with
  | zero => cases h
  | succ fuel ih =>
    obtain ⟨r, hr, h⟩ := bind_eq_some_iff.mp h
    obtain ⟨m, hm⟩ := htype p r hr
    cases hclose : r.consume close with
    | some s =>
      rw [hclose] at h
      obtain ⟨htext, hnodes, hdimensions⟩ := consume_some hclose
      obtain ⟨htexts, hq⟩ := Prod.mk.inj (some.inj h)
      rw [← hq]
      refine ⟨[m], by simp, ?_, .single hm htext hnodes hdimensions⟩
      rw [← htexts, slice_eq hm.text]
      rfl
    | none =>
      rw [hclose] at h
      obtain ⟨s, hs, h⟩ := bind_eq_some_iff.mp h
      obtain ⟨⟨rest, u⟩, hu, h⟩ := bind_eq_some_iff.mp h
      obtain ⟨htexts, hq⟩ := Prod.mk.inj (some.inj h)
      obtain ⟨members, hne, hrest, hall⟩ := ih hu
      rw [← hq]
      refine ⟨m :: members, by simp, ?_, .cons hm hs hne hall⟩
      rw [← htexts, slice_eq hm.text, hrest]
      rfl

lemma parseDelimitedList_sound
    (htype : ∀ p q, type p = some q → ∃ m, Parsed levels p q m) {close : Char} {q : Parser}
    (h : parseDelimitedList type close p = some (texts, q)) :
    ∃ members, texts = textsOf members ∧ ParsedAll levels p q [close] members := by
  unfold parseDelimitedList at h
  cases hclose : p.consume close with
  | some r =>
    rw [hclose] at h
    obtain ⟨htext, hnodes, hdimensions⟩ := consume_some hclose
    obtain ⟨htexts, hq⟩ := Prod.mk.inj (some.inj h)
    rw [← hq]
    refine ⟨[], htexts.symm, fun m hm => (not_mem_nil hm).elim, htext, hnodes, hdimensions, ?_, ?_⟩
    · intro hp
      rw [hnodes]
      exact hp
    · intro hp
      rw [hdimensions]
      exact hp
  | none =>
    rw [hclose] at h
    obtain ⟨members, -, htexts, hall⟩ := parseMembers_sound htype h
    exact ⟨members, htexts, hall⟩

theorem parseDimensions_sound {q r : Parser} (hm : Parsed levels p q m)
    (h : parseDimensions fuel q = some r) : ∃ m', Parsed levels p r m' := by
  induction fuel generalizing q m with
  | zero => cases h
  | succ fuel ih =>
    unfold parseDimensions at h
    split at h
    · rw [← some.inj h]
      exact ⟨m, hm⟩
    next s hs =>
      obtain ⟨htext, hnodes, hdimensions⟩ := consume_some hs
      obtain ⟨t, ht, h⟩ := bind_eq_some_iff.mp h
      dsimp only at h
      split at h
      · cases h
      next hdimension =>
        obtain ⟨u, hu, h⟩ := bind_eq_some_iff.mp h
        obtain ⟨htext', hnodes', hdimensions'⟩ := consume_some hu
        unfold chargeDimension at ht
        split at ht
        · cases ht
        next hroom =>
          have ht := some.inj ht
          rw [← ht] at htext' hnodes' hdimensions' hdimension
          dsimp only at htext' hnodes' hdimensions' hdimension
          generalize hdim : s.rest.takeWhile Char.isDigit = dimension at hdimension
          have hsplit : s.rest = dimension ++ ']' :: u.rest := by
            rw [← hdim, ← htext', takeWhile_append_dropWhile]
          have hcanonical : dimension = [] ∨ ∃ n, dimension = decimal n := by
            by_cases hnil : dimension = []
            · exact .inl hnil
            · have hdec : isCanonicalUnsignedDecimal dimension = true := by
                by_contra hnot
                exact hdimension ⟨hnil, by simpa using hnot⟩
              exact .inr ⟨_, isCanonicalUnsignedDecimal_iff.mp hdec⟩
          have h1 := hm.nodes
          have h2 := hm.dimensions
          have h3 := hm.nodesBound
          refine ih ⟨.array dimension hm.isType hcanonical, ?_, ?_, ?_, by omega, fun _ => by omega⟩
            h
          · rw [hm.text, htext, hsplit]
            simp
          · dsimp only
            omega
          · dsimp only
            omega

lemma parseTypeWith_sound {tuple : Parser → Option Parser} (htuple : ∀ p q, tuple p = some q →
      p.typeNodes ≤ maxABITypeNodes → ∃ members : List Member, levels ≠ 0 ∧
        ParsedAll (levels - 1) p q [')'] members)
    {p q : Parser} (h : parseTypeWith tuple p = some q) : ∃ m, Parsed levels p q m := by
  obtain ⟨r, hr, h⟩ := bind_eq_some_iff.mp h
  obtain ⟨s, hs, h⟩ := bind_eq_some_iff.mp h
  unfold chargeNode at hr
  unfold parseBase at hs
  split at hr
  · cases hr
  next hroom =>
    have hr := some.inj hr
    cases hparen : r.consume '(' with
    | some t =>
      rw [hparen] at hs
      obtain ⟨htext, hnodes, hdimensions⟩ := consume_some hparen
      rw [← hr] at htext hnodes hdimensions
      dsimp only at htext hnodes hdimensions hs
      obtain ⟨members, hlevels, hall⟩ := htuple t s hs (by omega)
      have h1 := hall.nodes
      have h2 := hall.dimensions
      have htype := IsType.tuple members hall.isType
      rw [Nat.sub_add_cancel (Nat.pos_of_ne_zero hlevels)] at htype
      refine parseDimensions_sound ⟨htype, ?_, ?_, ?_, hall.nodesBound (by omega), ?_⟩ h
      · rw [htext, hall.text]
        simp
      · dsimp only
        omega
      · dsimp only
        omega
      · intro hp
        exact hall.dimensionsBound (by omega)
    | none =>
      rw [hparen] at hs
      unfold parseElementary at hs
      dsimp only at hs
      split at hs
      · cases hs
      next hname =>
        have hs := some.inj hs
        have helementary : Elementary (r.rest.takeWhile Char.isAlphanum) := by
          apply isCanonicalElementaryABIType_iff.mp
          by_contra hnot
          exact hname (.inr (by simpa using hnot))
        rw [← hr] at helementary hs
        refine parseDimensions_sound ⟨.elementary _ helementary, ?_, ?_, ?_, ?_, ?_⟩ h
        · rw [← hs]
          exact (takeWhile_append_dropWhile).symm
        · rw [← hs]
        · rw [← hs]
          rfl
        · rw [← hs]
          dsimp only
          omega
        · rw [← hs]
          exact id

lemma parseType_sound {q : Parser} (h : parseType levels p = some q) :
    ∃ m, Parsed levels p q m := by
  induction levels generalizing p q with
  | zero =>
    refine parseTypeWith_sound ?_ h
    intro p q hnone
    cases hnone
  | succ levels ih =>
    refine parseTypeWith_sound ?_ h
    intro p q htuple _
    obtain ⟨⟨texts, r⟩, hlist, hr⟩ := Option.map_eq_some_iff.mp htuple
    obtain ⟨members, -, hall⟩ := parseDelimitedList_sound (fun p q => ih) hlist
    rw [← hr]
    exact ⟨members, Nat.succ_ne_zero _, hall⟩

lemma parseListMembers_complete
    (hne : members ≠ []) (hmembers : ∀ m ∈ members, IsType levels m)
    (htype : ∀ m ∈ members, Completes type m)
    (hfuel : members.length ≤ fuel) (hrest : p.rest = joinComma (textsOf members))
    (hnodes : p.typeNodes + nodesOf members ≤ maxABITypeNodes)
    (hdimensions : p.arrayDimensions + dimensionsOf members ≤ maxABIArrayDimensions) :
    parseListMembers type fuel p = some (textsOf members) := by
  induction members generalizing fuel p with
  | nil => exact (hne rfl).elim
  | cons m members ih =>
    obtain ⟨fuel, rfl⟩ : ∃ n, fuel = n + 1 := ⟨fuel - 1, by rw [length_cons] at hfuel; omega⟩
    have hm := htype m mem_cons_self
    have hsumNodes : nodesOf (m :: members) = m.nodes + nodesOf members := rfl
    have hsumDimensions : dimensionsOf (m :: members) = m.dimensions + dimensionsOf members := rfl
    rw [hsumNodes] at hnodes
    rw [hsumDimensions] at hdimensions
    unfold parseListMembers
    by_cases hlast : members = []
    · subst hlast
      have htext : p.rest = m.text ++ [] := by rw [hrest, append_nil]; rfl
      have hparse := hm p [] htext (fun c tail h => by cases h) (by omega) (by omega)
      rw [hparse]
      simp only [bind_eq_bind, bind_some]
      rw [if_pos trivial, slice_eq htext]
      rfl
    · have htext : p.rest = m.text ++ ',' :: joinComma (textsOf members) := by
        rw [hrest]
        exact joinComma_cons _ (by simpa [textsOf] using hlast)
      have hparse :=
        hm p _ htext (fun c tail h => .inl (List.cons.inj h).1.symm) (by omega) (by omega)
      have hmore : joinComma (textsOf members) ≠ [] := by
        cases members with
        | nil => exact (hlast rfl).elim
        | cons m' members =>
          obtain ⟨c, tail, htext', -⟩ := (hmembers m' (by simp)).starts
          cases members with
          | nil =>
            change m'.text ≠ []
            rw [htext']
            simp
          | cons m'' members =>
            change m'.text ++ _ ≠ []
            rw [htext']
            simp
      rw [hparse]
      simp only [bind_eq_bind, bind_some]
      rw [if_neg (by simp), consume_cons]
      simp only [bind_some]
      rw [if_neg hmore, ih hlast (fun m' hm' => hmembers m' (mem_cons_of_mem _ hm'))
        (fun m' hm' => htype m' (mem_cons_of_mem _ hm')) (by rw [length_cons] at hfuel; omega) rfl
        (by dsimp only; omega) (by dsimp only; omega)]
      simp only [bind_some]
      rw [slice_eq htext]
      rfl

lemma parseListMembers_sound (htype : ∀ p q, type p = some q → ∃ m, Parsed levels p q m)
    (h : parseListMembers type fuel p = some texts) :
    ∃ members q, members ≠ [] ∧ texts = textsOf members ∧ q.rest = [] ∧
      ParsedAll levels p q [] members := by
  induction fuel generalizing p texts with
  | zero => cases h
  | succ fuel ih =>
    obtain ⟨q, hq, h⟩ := bind_eq_some_iff.mp h
    obtain ⟨m, hm⟩ := htype p q hq
    split at h
    next hend =>
      refine ⟨[m], q, by simp, ?_, hend, .single hm rfl rfl rfl⟩
      rw [← some.inj h, slice_eq hm.text]
      rfl
    · obtain ⟨r, hr, h⟩ := bind_eq_some_iff.mp h
      split at h
      · cases h
      · obtain ⟨rest, hrest, h⟩ := bind_eq_some_iff.mp h
        obtain ⟨members, s, hne, htexts, hend, hall⟩ := ih hrest
        refine ⟨m :: members, s, by simp, ?_, hend, .cons hm hr hne hall⟩
        rw [← some.inj h, slice_eq hm.text, htexts]
        rfl

end Parser

open NeverD.Evm.Abi.Parser

variable {texts : List (List Char)} {text : List Char}

theorem Parser.ParsedAll.isTypeList {q : Parser} {close : List Char}
    (h : ParsedAll maxABITypeNestingDepth ⟨text, 0, 0⟩ q close members) :
    IsTypeList (textsOf members) := by
  have h1 := h.nodes
  have h2 := h.dimensions
  have h3 := h.nodesBound (Nat.zero_le _)
  have h4 := h.dimensionsBound (Nat.zero_le _)
  unfold maxABITypeNodes at h3
  unfold maxABIArrayDimensions at h4
  exact ⟨members, rfl, h.isType, by omega, by omega⟩

lemma parseList_iff : parseList text = some texts ↔ IsTypeList texts ∧ text = joinComma texts := by
  unfold parseList
  constructor
  · intro h
    split at h
    next hnil =>
      rw [← some.inj h]
      exact ⟨⟨[], rfl, fun m hm => (not_mem_nil hm).elim, Nat.zero_le _, Nat.zero_le _⟩, hnil⟩
    · obtain ⟨members, q, -, htexts, hend, hall⟩ :=
        parseListMembers_sound (fun p q => parseType_sound) h
      rw [htexts]
      refine ⟨hall.isTypeList, ?_⟩
      have htext := hall.text
      rw [hend, append_nil, append_nil] at htext
      exact htext
  · intro h
    obtain ⟨⟨members, htexts, hmembers, hnodes, hdimensions⟩, htext⟩ := h
    by_cases hnil : members = []
    · subst hnil
      rw [htexts] at htext ⊢
      rw [if_pos (show text = [] from htext)]
      rfl
    · have hlength := length_le_nodesOf hmembers
      have hne : text ≠ [] := by
        intro hempty
        cases members with
        | nil => exact hnil rfl
        | cons m members =>
          obtain ⟨c, tail, hm, -⟩ := (hmembers m mem_cons_self).starts
          rw [hempty, htexts] at htext
          cases members with
          | nil =>
            change [] = m.text at htext
            rw [hm] at htext
            cases htext
          | cons m' members =>
            change [] = m.text ++ _ at htext
            rw [hm] at htext
            cases htext
      rw [if_neg hne, htexts]
      apply parseListMembers_complete hnil hmembers
        (fun m hm => parseType_completes (hmembers m hm))
      · unfold maxABITypeNodes
        omega
      · rw [htext, htexts]
      · unfold maxABITypeNodes
        dsimp only
        omega
      · unfold maxABIArrayDimensions
        dsimp only
        omega

lemma parseParenthesizedList_iff :
    parseParenthesizedList text = some texts ↔ IsTypeList texts ∧
      text = '(' :: (joinComma texts ++ [')']) := by
  unfold parseParenthesizedList
  constructor
  · intro h
    obtain ⟨p, hp, h⟩ := bind_eq_some_iff.mp h
    obtain ⟨⟨members, q⟩, hq, h⟩ := bind_eq_some_iff.mp h
    dsimp only at h
    split at h
    next hend =>
      rw [some.inj h] at hq
      obtain ⟨htext, hnodes, hdimensions⟩ := consume_some hp
      dsimp only at htext hnodes hdimensions
      obtain ⟨rest, nodes, dimensions⟩ := p
      dsimp only at hnodes hdimensions htext
      subst hnodes hdimensions
      obtain ⟨members', htexts, hall⟩ := parseDelimitedList_sound (fun p q => parseType_sound) hq
      rw [htexts]
      refine ⟨hall.isTypeList, ?_⟩
      have hrest := hall.text
      rw [hend, append_nil] at hrest
      rw [htext]
      exact congrArg _ hrest
    · cases h
  · intro h
    obtain ⟨⟨members, htexts, hmembers, hnodes, hdimensions⟩, htext⟩ := h
    have hlist := @parseDelimitedList_complete _ _ members hmembers
      (fun m hm => parseType_completes (hmembers m hm))
      ⟨joinComma (textsOf members) ++ [')'], 0, 0⟩ [] rfl
        (by unfold maxABITypeNodes; dsimp only; omega)
      (by unfold maxABIArrayDimensions; dsimp only; omega)
    rw [htext, htexts, consume_cons]
    simp only [bind_eq_bind, bind_some]
    change (parseDelimitedList (parseType 64) ')' _).bind _ = _
    rw [hlist]
    simp only [bind_some]
    rfl

lemma isCanonicalSignatureName_iff : isCanonicalSignatureName name = true ↔ IsName name := by
  constructor
  · intro h
    cases name with
    | nil => cases h
    | cons c rest =>
      simp only [isCanonicalSignatureName, Bool.and_eq_true, Bool.or_eq_true, decide_eq_true_eq,
        all_eq_true] at h
      exact ⟨c, rest, by simpa [or_assoc] using h.1, fun d hd => by simpa [or_assoc] using h.2 d hd⟩
  · intro h
    obtain ⟨c, rest, hc, hrest⟩ := h
    simp only [isCanonicalSignatureName, Bool.and_eq_true, Bool.or_eq_true, decide_eq_true_eq,
      all_eq_true]
    exact ⟨by simpa [or_assoc] using hc, fun d hd => by simpa [or_assoc] using hrest d hd⟩

lemma IsName.no_paren (h : IsName name) : ∀ c ∈ name, decide (c ≠ '(') = true := by
  have hword : ∀ d : Char, d.isAlphanum ∨ d = '_' ∨ d = '$' → decide (d ≠ '(') = true := by
    intro d hd
    rw [decide_eq_true_eq]
    intro hparen
    rw [hparen] at hd
    rcases hd with hd | hd | hd <;> cases hd
  obtain ⟨c, rest, hc, hrest⟩ := h
  intro d hd
  rcases mem_cons.mp hd with hd | hd
  · rw [hd]
    apply hword
    rcases hc with hc | hc
    · exact .inl (by unfold Char.isAlphanum; rw [hc]; rfl)
    · exact .inr hc
  · exact hword d (hrest d hd)

lemma parseCanonicalABISignature_iff {signature : List Char} :
      parseCanonicalABISignature signature = some texts ↔
      ∃ name, IsName name ∧ IsTypeList texts ∧
      signature = name ++ '(' :: (joinComma texts ++ [')']) := by
  unfold parseCanonicalABISignature
  constructor
  · intro h
    dsimp only at h
    split at h
    · cases h
    next hname =>
      obtain ⟨htexts, hlist⟩ := parseParenthesizedList_iff.mp h
      refine ⟨signature.takeWhile (fun c => decide (c ≠ '(')), ?_, htexts, ?_⟩
      · apply isCanonicalSignatureName_iff.mp
        by_contra hnot
        exact hname (.inr (by simpa using hnot))
      · rw [← hlist, takeWhile_append_dropWhile]
  · intro h
    obtain ⟨name, hname, htexts, hsignature⟩ := h
    have hno := hname.no_paren
    have htake : signature.takeWhile (fun c => decide (c ≠ '(')) = name := by
      rw [hsignature, takeWhile_append_of_pos hno, takeWhile_cons_of_neg (by simp), append_nil]
    have hdrop : signature.dropWhile (fun c => decide (c ≠ '(')) = '(' ::
        (joinComma texts ++ [')']) := by
      rw [hsignature, dropWhile_append_of_pos hno, dropWhile_cons_of_neg (by simp)]
    rw [htake, hdrop, if_neg]
    · exact parseParenthesizedList_iff.mpr ⟨htexts, rfl⟩
    · intro hor
      rcases hor with h' | h'
      · cases h'
      · rw [isCanonicalSignatureName_iff.mpr hname] at h'
        cases h'

lemma IsTypeList.member (h : IsTypeList texts) (htext : text ∈ texts) : IsTypeList [text] := by
  obtain ⟨members, htexts, hmembers, hnodes, hdimensions⟩ := h
  rw [htexts] at htext
  obtain ⟨m, hm, hmtext⟩ := mem_map.mp htext
  have h1 : m.nodes ≤ nodesOf members :=
    single_le_sum (fun _ _ => Nat.zero_le _) _ (mem_map_of_mem hm)
  have h2 : m.dimensions ≤ dimensionsOf members :=
    single_le_sum (fun _ _ => Nat.zero_le _) _ (mem_map_of_mem hm)
  refine ⟨[m], by rw [← hmtext]; rfl, ?_, ?_, ?_⟩
  · intro m' hm'
    rw [mem_singleton.mp hm']
    exact hmembers m hm
  · change m.nodes + 0 ≤ 4096
    omega
  · change m.dimensions + 0 ≤ 256
    omega

/-- Signatures and lists are accepted when they are in the grammar and within the budgets; the
members are returned as they stand, and each is a list of its own. -/
theorem parse_canonical_grammar :
      (∀ signature texts, parseCanonicalABISignature signature = some texts ↔
      ∃ name, IsName name ∧ IsTypeList texts ∧
      signature = name ++ '(' :: (joinComma texts ++ [')'])) ∧
    (∀ list texts, parseList list = some texts ↔ IsTypeList texts ∧ list = joinComma texts) ∧
    (∀ list texts, IsTypeList texts → list = joinComma texts → splitTypeList list = texts) ∧
    (∀ list, (¬∃ texts, IsTypeList texts ∧ list = joinComma texts) → splitTypeList list = []) ∧
    ∀ texts, IsTypeList texts → ∀ text ∈ texts, parseList text = some [text] ∧
    splitTypeList text = [text] := by
  refine ⟨fun signature texts => parseCanonicalABISignature_iff, fun list texts => parseList_iff,
    ?_, ?_, ?_⟩
  · intro list texts htexts hlist
    unfold splitTypeList
    rw [parseList_iff.mpr ⟨htexts, hlist⟩]
    rfl
  · intro list hnot
    unfold splitTypeList
    cases hparse : parseList list with
    | none => rfl
    | some texts => exact (hnot ⟨texts, parseList_iff.mp hparse⟩).elim
  · intro texts htexts text htext
    have hparse : parseList text = some [text] := parseList_iff.mpr ⟨htexts.member htext, rfl⟩
    refine ⟨hparse, ?_⟩
    unfold splitTypeList
    rw [hparse]
    rfl

end NeverD.Evm.Abi
