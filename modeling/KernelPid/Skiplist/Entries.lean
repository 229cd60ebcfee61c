import KernelPid.Lib.KeyedList
import KernelPid.Skiplist.Memory
import KernelPid.Skiplist.WellFormed

/-!
# The entries of the plain skip list

What a reader of the whole list sees of a node is its key, its value and its height. The list of
these entries ascends in the keys, so it is a map, and a writer call that gets its memory changes
the map at its own key only (`Inv.write_effect`). What it does to `sl->level` depends on whether the
top level is in use (`TopUsed`): then the level is the height of the tallest node. Together this
makes calls on different keys commute.
-/

namespace KernelPid.PidSkiplist

open Runs Tower KeyedList

variable {α : Type} {s s' : PidSkiplist α} {h x : Addr} {i : ℕ} {L L' A B : List Addr}
  {op : WriteOp α}

/-! ## Entries -/

/-- What a node shows. -/
structure Entry (α : Type) where
  key : ℤ
  pid : Option α
  level : ℕ

def entry (s : PidSkiplist α) (x : Addr) : Entry α := ⟨s.key x, s.pid x, s.ht x⟩

/-- The entries of the nodes that follow the header on level `i`. -/
def levelEntries (s : PidSkiplist α) (i : ℕ) : Except Fault (List (Entry α)) := do
  let xs ← s.levelChain i
  xs.mapM fun x => do
    let n ← s.deref x
    .ok ⟨n.key, n.pid, n.level⟩

/-- Level `i` shows the entries of the nodes that reach it. -/
theorem Shape.levelEntries_eq (hs : Shape s h L) (hi : i < pidSlMaxLevel) :
    s.levelEntries i = .ok ((L.map s.entry).filter fun e => i < e.level) := by
  rw [levelEntries, hs.levelChain_eq hi, ok_bind, List.filter_map]
  refine mapM_eq_ok fun x hx => ?_
  have hxi := of_decide_eq_true (List.mem_filter.mp hx).2
  rw [deref_eq (Nat.zero_lt_of_lt hxi), ok_bind]
  rfl

theorem Inv.ascending (hs : Inv s h L) : Ascending Entry.key (L.map s.entry) :=
  List.pairwise_map.mpr hs.sorted

/-! ## The tallest node -/

/-- The greatest number of levels, at least 1. -/
def tallest (E : List (Entry α)) : ℕ := E.foldr (fun e n => max e.level n) 1

theorem tallest_le_iff {E : List (Entry α)} {n : ℕ} :
    tallest E ≤ n ↔ 1 ≤ n ∧ ∀ e ∈ E, e.level ≤ n := by
  induction E with
  | nil => simp [tallest]
  | cons e E ih =>
      have hcons : tallest (e :: E) = max e.level (tallest E) := rfl
      rw [hcons, Nat.max_le, ih, List.forall_mem_cons]
      tauto

theorem tallest_append_cons (E F : List (Entry α)) (e : Entry α) :
    tallest (E ++ e :: F) = max e.level (tallest (E ++ F)) := by
  induction E with
  | nil => rfl
  | cons a E ih =>
      have hcons : ∀ E : List (Entry α), tallest (a :: E) = max a.level (tallest E) := fun _ => rfl
      rw [List.cons_append, List.cons_append, hcons, hcons, ih, max_left_comm]

/-- `sl->level == 1 || sl->header->forward[sl->level - 1]` -/
def TopUsed (s : PidSkiplist α) : Prop :=
  s.level = 1 ∨ ∃ header y, s.header = some header ∧ s.forward header (s.level - 1) = .ok (some y)

theorem Shape.topUsed_iff_fwd (hs : Shape s h L) :
    TopUsed s ↔ (1 < s.level → s.fwd h (s.level - 1) ≠ none) := by
  have hlevel := hs.level_pos
  have hforward : s.forward h (s.level - 1) = .ok (s.fwd h (s.level - 1)) := by
    apply forward_eq
    exact lt_of_lt_of_le (Nat.sub_one_lt_of_lt hlevel) hs.level_le_header
  constructor
  · rintro (hone | ⟨header, y, hheader, hy⟩) hlt
    · omega
    · obtain rfl : header = h := Option.some.inj (hheader.symm.trans hs.header)
      rw [hforward] at hy
      rw [Except.ok.inj hy]
      exact Option.some_ne_none y
  · intro htop
    by_cases hone : s.level = 1
    · exact Or.inl hone
    · obtain ⟨y, hy⟩ := Option.ne_none_iff_exists'.mp (htop (by omega))
      exact Or.inr ⟨h, y, hs.header, by rw [hforward, hy]⟩

/-- The top level is in use when `sl->level` is the height of the tallest node. -/
theorem Shape.topUsed_iff (hs : Shape s h L) : TopUsed s ↔ s.level = tallest (L.map s.entry) := by
  have hle : tallest (L.map s.entry) ≤ s.level := by
    rw [tallest_le_iff]
    refine ⟨hs.level_pos, fun e he => ?_⟩
    obtain ⟨p, hp, rfl⟩ := List.mem_map.mp he
    exact hs.ht_le p hp
  have htallest := (tallest_le_iff (E := L.map s.entry)).mp (le_refl _)
  rw [hs.topUsed_iff_fwd]
  constructor
  · intro htop
    apply le_antisymm _ hle
    by_cases hone : s.level = 1
    · rw [hone]
      exact htallest.1
    · -- some node is as tall as the level
      have hlevel := hs.level_pos
      obtain ⟨y, hy⟩ := Option.ne_none_iff_exists'.mp (htop (by omega))
      rw [hs.linked.fwd_head (by have := hs.level_le_header; omega)] at hy
      have hyle := htallest.2 _ (List.mem_map_of_mem (mem_of_nextAt hy))
      have hlt := lt_of_nextAt hy
      simp only [entry] at hyle
      omega
  · intro heq hlt hnone
    rw [hs.linked.fwd_head (by have := hs.level_le_header; omega), nextAt_eq_none_iff] at hnone
    have hle' : tallest (L.map s.entry) ≤ s.level - 1 := by
      rw [tallest_le_iff]
      refine ⟨by omega, fun e he => ?_⟩
      obtain ⟨p, hp, rfl⟩ := List.mem_map.mp he
      exact hnone p hp
    omega

/-! ## What a call does to the entries -/

/-- The call gets the memory it asks for. -/
def WriteOp.Granted : WriteOp α → Prop
  | .insert _ _ env => env.ok = true
  | .remove _ => True

/-- What becomes of the entry with the key of the call. -/
def WriteOp.become : WriteOp α → Option (Entry α) → Option (Entry α)
  | .insert key pid env, none => some { key, pid, level := env.draw.val }
  | .insert _ pid _, some e => some { e with pid }
  | .remove _, _ => none

/-- The call takes a node out. -/
def WriteOp.TakesOut : WriteOp α → Option (Entry α) → Prop
  | .insert _ _ _, _ => False
  | .remove _, e => e ≠ none

/-- The height of the node that the call puts in, `0` if it does not. -/
def WriteOp.raise : WriteOp α → Option (Entry α) → ℕ
  | .insert _ _ env, none => env.draw.val
  | _, _ => 0

theorem WriteOp.become_key {o : Option (Entry α)} (ho : ∀ e ∈ o, e.key = op.key) :
    ∀ e ∈ op.become o, e.key = op.key := by
  intro e he
  cases op with
  | insert k v env =>
      cases o with
      | none => rw [← Option.some.inj he, WriteOp.key]
      | some e₀ => rw [← Option.some.inj he, ← ho e₀ rfl]
  | remove k => simp [WriteOp.become] at he

/-- The entries of the nodes `L`, by their keys. -/
def entryAt (s : PidSkiplist α) (L : List Addr) : ℤ → Option (Entry α) :=
  lookup Entry.key (L.map s.entry)

/-- A call has made the list `s'` of `s`, with entries `m` and `m'`. -/
structure Effect (op : WriteOp α) (s s' : PidSkiplist α) (m m' : ℤ → Option (Entry α)) : Prop where
  entries : m' = changeAt op.key op.become m
  kept : TopUsed s → TopUsed s'
  lowered : op.TakesOut (m op.key) → TopUsed s'
  raised : ¬ op.TakesOut (m op.key) → s'.level = max s.level (op.raise (m op.key))

/-- A call changes the entry between two parts of the list that do not have its key. -/
theorem effect_between {E F : List (Entry α)} {o : Option (Entry α)}
    (hs : L.map s.entry = E ++ (o.toList ++ F))
    (hs' : L'.map s'.entry = E ++ ((op.become o).toList ++ F)) (hE : ∀ e ∈ E, e.key ≠ op.key)
    (hF : ∀ e ∈ F, e.key ≠ op.key) (ho : ∀ e ∈ o, e.key = op.key) (hkept : TopUsed s → TopUsed s')
    (hlowered : op.TakesOut o → TopUsed s')
    (hraised : ¬ op.TakesOut o → s'.level = max s.level (op.raise o)) :
    Effect op s s' (s.entryAt L) (s'.entryAt L') := by
  obtain ⟨hold, hnew⟩ := lookup_change hE hF ho (op.become_key ho)
  have hat : s.entryAt L op.key = o := by rw [entryAt, hs, hold]
  refine ⟨?_, hkept, by rwa [hat], by rwa [hat]⟩
  rw [changeAt, hat, entryAt, entryAt, hs, hs', hnew]

/-- The keys beside a node are not its own. -/
theorem Inv.keys_ne {p : Addr} (hs : Inv s h (A ++ p :: B)) :
    (∀ a ∈ A, s.key a ≠ s.key p) ∧ ∀ b ∈ B, s.key b ≠ s.key p := by
  obtain ⟨-, hpB, hAp⟩ := List.pairwise_append.mp hs.sorted
  constructor
  · intro a ha
    exact ne_of_lt (hAp a ha p List.mem_cons_self)
  · intro b hb
    exact (ne_of_lt ((List.pairwise_cons.mp hpB).1 b hb)).symm

theorem forall_map_key {k : ℤ} (hA : ∀ a ∈ A, s.key a ≠ k) : ∀ e ∈ A.map s.entry, e.key ≠ k := by
  intro e he
  obtain ⟨a, ha, rfl⟩ := List.mem_map.mp he
  exact hA a ha

/-- The entries beside a node. -/
theorem map_entry_between {p : Addr} (hsame : ∀ a ∈ A ++ B, s'.entry a = s.entry a) :
    (A ++ p :: B).map s'.entry = A.map s.entry ++ s'.entry p :: B.map s.entry := by
  rw [List.map_append, List.map_cons,
    List.map_congr_left fun a ha => hsame a (List.mem_append_left B ha),
      List.map_congr_left fun b hb => hsame b (List.mem_append_right A hb)]

/-- A value is replaced. -/
theorem Inv.effect_setPid {p : Addr} (hs : Inv s h (A ++ p :: B)) (v : Option α) (env : NodeEnv) :
    Effect (.insert (s.key p) v env) s (s.setPid p v) (s.entryAt (A ++ p :: B))
      ((s.setPid p v).entryAt (A ++ p :: B)) := by
  have hp : 0 < s.ht p := hs.ht_pos p (by simp)
  have hne : ∀ a ∈ A ++ B, a ≠ p := by
    intro a ha
    have hnodup := (List.nodup_cons.mp hs.nodup).2
    simp only [List.nodup_append, List.nodup_cons, List.mem_cons, List.mem_append] at hnodup ha
    grind
  have hsame : ∀ a ∈ A ++ B, (s.setPid p v).entry a = s.entry a := by
    intro a ha
    simp only [entry, setPid_key, setPid_ht, setPid_pid v hp, if_neg (hne a ha)]
  have hat : (s.setPid p v).entry p = { s.entry p with pid := v } := by
    simp only [entry, setPid_key, setPid_ht, setPid_pid v hp, if_true]
  obtain ⟨hA, hB⟩ := hs.keys_ne
  apply effect_between (E := A.map s.entry) (F := B.map s.entry) (o := some (s.entry p))
  · rw [List.map_append, List.map_cons]
    rfl
  · rw [map_entry_between hsame, hat]
    rfl
  · exact forall_map_key hA
  · exact forall_map_key hB
  · intro e he
    rw [← Option.some.inj he]
    rfl
  · rw [hs.topUsed_iff_fwd, (hs.setPid p v).topUsed_iff_fwd, setPid_fwd, setPid_level]
    exact id
  · exact fun hc => absurd hc id
  · intro _
    exact (max_eq_left (Nat.zero_le _)).symm

/-- A node is put in. -/
theorem Added.effect {k : ℤ} {v : Option α} {env : NodeEnv} (hs : Inv s h (A ++ B))
    (hs' : Inv s' h (A ++ s.brk :: B)) (hadded : Added s s' h A k v env.draw.val) :
    Effect (.insert k v env) s s' (s.entryAt (A ++ B)) (s'.entryAt (A ++ s.brk :: B)) := by
  have hsame : ∀ a ∈ A ++ B, s'.entry a = s.entry a := by
    intro a ha
    have hne : a ≠ s.brk := hs.ne_brk a (List.mem_cons_of_mem h ha)
    simp only [entry, hadded.key, hadded.pid, hadded.ht, if_neg hne]
  have hat : s'.entry s.brk = ⟨k, v, env.draw.val⟩ := by
    simp only [entry, hadded.key, hadded.pid, hadded.ht, if_true]
  have hmap := map_entry_between (p := s.brk) hsame
  have hkey : s'.key s.brk = k := by rw [hadded.key, if_pos rfl]
  obtain ⟨hA, hB⟩ := hs'.keys_ne
  rw [hkey] at hA hB
  have hkey' : ∀ a ∈ A ++ B, s'.key a = s.key a := fun a ha => congrArg Entry.key (hsame a ha)
  apply effect_between (E := A.map s.entry) (F := B.map s.entry) (o := none)
  · rw [List.map_append]
    rfl
  · rw [hmap, hat]
    rfl
  · apply forall_map_key
    intro a ha
    rw [← hkey' a (by simp [ha])]
    exact hA a ha
  · apply forall_map_key
    intro b hb
    rw [← hkey' b (by simp [hb])]
    exact hB b hb
  · simp
  · -- the tallest node is the old one or the new one, and the level goes up with it
    rw [hs.topUsed_iff, hs'.topUsed_iff, hmap, tallest_append_cons, ← List.map_append, hat,
      hadded.level, max_comm]
    exact fun hlevel => congrArg _ hlevel
  · exact fun hc => absurd hc id
  · intro _
    exact hadded.level

/-- A node is taken out. -/
theorem Removed.effect {p : Addr} (hs : Inv s h (A ++ p :: B)) (hs' : Inv s' h (A ++ B))
    (hrem : Removed s s' h A p) :
    Effect (.remove (s.key p)) s s' (s.entryAt (A ++ p :: B)) (s'.entryAt (A ++ B)) := by
  have hsame : s'.entry = s.entry := by
    funext a
    simp only [entry, hrem.key, hrem.pid, hrem.ht]
  have htop : TopUsed s' := hs'.topUsed_iff_fwd.mpr hrem.shrunk
  obtain ⟨hA, hB⟩ := hs.keys_ne
  apply effect_between (E := A.map s.entry) (F := B.map s.entry) (o := some (s.entry p))
  · rw [List.map_append, List.map_cons]
    rfl
  · rw [List.map_append, hsame]
    rfl
  · exact forall_map_key hA
  · exact forall_map_key hB
  · intro e he
    rw [← Option.some.inj he]
    rfl
  · exact fun _ => htop
  · exact fun _ => htop
  · exact fun hc => absurd (Option.some_ne_none _) hc

/-- The key is not there. -/
theorem effect_absent {k : ℤ} (hk : ∀ p ∈ L, s.key p ≠ k) :
    Effect (.remove k) s s (s.entryAt L) (s.entryAt L) := by
  apply effect_between (E := L.map s.entry) (F := []) (o := none)
  · simp
  · simp [WriteOp.become]
  · exact forall_map_key hk
  · simp
  · simp
  · exact id
  · exact fun hc => absurd rfl hc
  · intro _
    exact (max_eq_left (Nat.zero_le _)).symm

/-- A call that gets its memory changes the entry with its key only. -/
theorem Inv.write_effect (hs : Inv s h L) (hop : op.Granted) :
    ∃ s' retval L', s.write op = .ok (s', retval) ∧ Inv s' h L' ∧
      Effect op s s' (s.entryAt L) (s'.entryAt L') := by
  have hsplit := below_append_above s
  cases op with
  | insert k v env =>
      by_cases hpres : ∃ p ∈ L, s.key p = k
      · obtain ⟨p, hp, rfl⟩ := hpres
        refine ⟨s.setPid p v, some 0, L, ?_, hs.setPid p v, ?_⟩
        · simp only [write, hs.insert_present hp rfl, ok_bind]
        · obtain ⟨B, hL⟩ := split_at_mem hs.sorted hp
          generalize below s (s.key p) L = A at hL
          subst hL
          exact hs.effect_setPid v env
      · have hnew : ∀ p ∈ L, s.key p ≠ k := fun p hp hk => hpres ⟨p, hp, hk⟩
        obtain ⟨s', hs', hinv', hadded⟩ := hs.insert_absent hnew hop v
        refine ⟨s', some 0, _, by simp only [write, hs', ok_bind], hinv', ?_⟩
        have heffect := hadded.effect ((hsplit k L).symm ▸ hs) hinv'
        rwa [hsplit] at heffect
  | remove k =>
      by_cases hpres : ∃ p ∈ L, s.key p = k
      · obtain ⟨p, hp, rfl⟩ := hpres
        obtain ⟨s', B, hs', hL, hinv', hrem⟩ := hs.remove_present hp
        refine ⟨s', none, _, by simp only [write, hs', ok_bind], hinv', ?_⟩
        have heffect := hrem.effect (hL ▸ hs) hinv'
        rwa [← hL] at heffect
      · have hnew : ∀ p ∈ L, s.key p ≠ k := fun p hp hk => hpres ⟨p, hp, hk⟩
        exact ⟨s, none, L, by
          simp only [write, hs.remove_absent hnew, ok_bind], hs, effect_absent hnew⟩

/-! ## Two calls -/

/-- Two calls one after the other. -/
theorem Inv.write_two {a b : WriteOp α} (hs : Inv s h L) (ha : a.Granted) (hb : b.Granted) :
    ∃ s₁ s' retvals L₁ L', runOut write s [a, b] = .ok (s', retvals) ∧ Inv s' h L' ∧
      Effect a s s₁ (s.entryAt L) (s₁.entryAt L₁) ∧
      Effect b s₁ s' (s₁.entryAt L₁) (s'.entryAt L') := by
  obtain ⟨s₁, r₁, L₁, hs₁, hinv₁, ha'⟩ := hs.write_effect ha
  obtain ⟨s', r', L', hs', hinv', hb'⟩ := hinv₁.write_effect hb
  refine ⟨s₁, s', [r₁, r'], L₁, L', ?_, hinv', ha', hb'⟩
  simp only [runOut, hs₁, ok_bind, hs']

/-- The level that two calls on different keys leave behind, unless the top level is in use then. -/
theorem Effect.level_or_topUsed {a b : WriteOp α} {s₁ : PidSkiplist α}
    {m m₁ m' : ℤ → Option (Entry α)} (ha : Effect a s s₁ m m₁) (hb : Effect b s₁ s' m₁ m')
    (hab : b.key ≠ a.key) :
    ((a.TakesOut (m a.key) ∨ b.TakesOut (m b.key)) → TopUsed s') ∧
      (¬ (a.TakesOut (m a.key) ∨ b.TakesOut (m b.key)) →
        s'.level = max (max s.level (a.raise (m a.key))) (b.raise (m b.key))) := by
  have hsame : m₁ b.key = m b.key := by rw [ha.entries, changeAt_of_ne _ _ hab]
  have hlowered := hb.lowered
  have hraised := hb.raised
  rw [hsame] at hlowered hraised
  constructor
  · rintro (hout | hout)
    · exact hb.kept (ha.lowered hout)
    · exact hlowered hout
  · intro hnot
    obtain ⟨hna, hnb⟩ := not_or.mp hnot
    rw [hraised hnb, ha.raised hna]

/-- Two calls on different keys that get their memory, in the one order and in the other, leave the
same level and the same entries on every level. -/
theorem calls_commute (s : PidSkiplist α) (hs : Reachable s) (a b : WriteOp α) (hab : a.key ≠ b.key)
    (ha : a.Granted) (hb : b.Granted) :
    ∃ s₁ retvals₁ s₂ retvals₂, runOut write s [a, b] = .ok (s₁, retvals₁) ∧
      runOut write s [b, a] = .ok (s₂, retvals₂) ∧ s₁.level = s₂.level ∧
      ∀ i < pidSlMaxLevel, ∃ E, s₁.levelEntries i = .ok E ∧ s₂.levelEntries i = .ok E := by
  obtain ⟨L, hinv⟩ := hs.inv
  obtain ⟨sa, s₁, r₁, La, L₁, hrun₁, hinv₁, ha₁, hb₁⟩ := hinv.write_two ha hb
  obtain ⟨sb, s₂, r₂, Lb, L₂, hrun₂, hinv₂, hb₂, ha₂⟩ := hinv.write_two hb ha
  have hmap : s₁.entryAt L₁ = s₂.entryAt L₂ := by
    rw [hb₁.entries, ha₁.entries, ha₂.entries, hb₂.entries, changeAt_comm hab]
  have hE : L₁.map s₁.entry = L₂.map s₂.entry := hinv₁.ascending.eq_of_lookup hinv₂.ascending hmap
  refine ⟨s₁, r₁, s₂, r₂, hrun₁, hrun₂, ?_, fun i hi => ?_⟩
  · obtain ⟨hused₁, hlevel₁⟩ := ha₁.level_or_topUsed hb₁ hab.symm
    obtain ⟨hused₂, hlevel₂⟩ := hb₂.level_or_topUsed ha₂ hab
    by_cases hout : a.TakesOut (s.entryAt L a.key) ∨ b.TakesOut (s.entryAt L b.key)
    · -- the level is the height of the tallest node, and that is the same
      rw [hinv₁.topUsed_iff.mp (hused₁ hout), hinv₂.topUsed_iff.mp (hused₂ hout.symm), hE]
    · rw [hlevel₁ hout, hlevel₂ fun hc => hout hc.symm, Nat.max_right_comm]
  · exact ⟨_, hinv₁.levelEntries_eq hi, by rw [hinv₂.levelEntries_eq hi, hE]⟩

/-- On a list with the key 5: a key in front of it comes, and it goes. -/
theorem calls_commute_side_by_side :
    ∃ s : PidSkiplist ℕ,
      run memStep init [.write (.insert 5 (some 50) ⟨pidSlRandomLevel 1, true, true⟩)] = .ok s ∧
      ∃ s₁ retvals₁ s₂ retvals₂,
        runOut write s [.insert 3 (some 30) ⟨pidSlRandomLevel 0, true, true⟩, .remove 5] =
          .ok (s₁, retvals₁) ∧
        runOut write s [.remove 5, .insert 3 (some 30) ⟨pidSlRandomLevel 0, true, true⟩] =
          .ok (s₂, retvals₂) ∧
        s₁.level = s₂.level ∧
        ∀ i < pidSlMaxLevel, ∃ E, s₁.levelEntries i = .ok E ∧ s₂.levelEntries i = .ok E := by
  obtain ⟨s, hrun, -⟩ := memStep_run [.write (.insert 5 (some 50) ⟨pidSlRandomLevel 1, true, true⟩)]
  have hkeys : WriteOp.key (.insert 3 (some 30) ⟨pidSlRandomLevel 0, true, true⟩ : WriteOp ℕ) ≠
      WriteOp.key (.remove 5 : WriteOp ℕ) := by decide
  exact ⟨s, hrun, calls_commute s ⟨_, hrun⟩ _ _ hkeys rfl trivial⟩

end KernelPid.PidSkiplist
