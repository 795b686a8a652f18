import Provenance.Proofs.Database

/-!
# Tables under their exact names

A table is *listed* under a name if it is found under it and the name is its own, letter by letter.
A collection knows what it is to keep by exact names, so it is listed tables that it keeps. No two
tables of a database have one name, whatever statements it has run.
-/

namespace Provenance

namespace Store.Database

variable {db db' : Database}

/-! ## One table of a name -/

/-- No two tables have the same name. -/
def Distinct (db : Database) : Prop :=
  (db.tables.map Table.name).Pairwise fun a b => sameName a b = false

/-- The table that has a name is found under it. -/
theorem Distinct.table?_eq (h : db.Distinct) {t : Table} (ht : t ∈ db.tables) {name : String}
    (hname : sameName t.name name = true) : db.table? name = some t := by
  rw [← table?_congr hname]
  obtain ⟨pre, post, hsplit⟩ := List.append_of_mem ht
  rw [Distinct, hsplit, List.map_append, List.pairwise_append] at h
  have hpre : pre.find? (fun u => sameName u.name t.name) = none :=
    List.find?_eq_none.2 fun u hu => by
      simp [h.2.2 u.name (List.mem_map_of_mem hu) t.name (by simp)]
  rw [table?, hsplit, List.find?_append, hpre]
  simp

/-- Statements keep the names of tables apart. -/
theorem apply_distinct {s : Statement} {answer : Option (List Row)}
    (h : db.apply s = .ok (db', answer)) (hdb : db.Distinct) : db'.Distinct := by
  obtain rfl | ⟨ia, n, cs, list, keys, rfl, hn, rfl⟩ | ⟨ip, n, rfl, rfl⟩ | ⟨n, hs, t, rows, ht, rfl⟩ :=
    apply_cases h
  · exact hdb
  · rw [Distinct, Database.add, List.map_append, List.pairwise_append]
    refine ⟨hdb, by simp, fun a ha b hb => ?_⟩
    obtain ⟨u, hu, rfl⟩ := List.mem_map.1 ha
    obtain rfl : b = n := by simpa using hb
    simpa using List.find?_eq_none.1 hn u hu
  · exact hdb.sublist (List.filter_sublist.map Table.name)
  · rw [Distinct, List.pairwise_map] at hdb ⊢
    rw [replace, List.pairwise_map]
    have himage : ∀ u : Table, sameName (if sameName u.name t.name then { t with rows } else u).name
        u.name = true := fun u => by
      split
      · next hu => rw [sameName_comm]; exact hu
      · exact sameName_self _
    refine hdb.imp fun {u v} huv => ?_
    rw [sameName_congr (himage u), sameName_comm, sameName_congr (himage v), sameName_comm]
    exact huv

/-! ## Requests of any kind -/

theorem runText_preserves {I : Database → Prop}
    (h : ∀ s db db' answer, I db → db.apply s = .ok (db', answer) → I db') (fuel : Nat)
    (last : Option (List Row)) (cs : List Char) (hdb : I db) : I (runText fuel db last cs).2 := by
  induction fuel generalizing db last cs with
  | zero => exact hdb
  | succ fuel ih =>
    rw [runText]
    split
    · exact hdb
    · dsimp only
      split
      · exact ih _ _ hdb
      · split
        · exact hdb
        · split
          · next hs => exact ih _ _ (h _ _ _ _ hdb hs)
          · exact hdb

/-- What each statement preserves is preserved by each request, also by a text. -/
theorem run_preserves {I : Database → Prop}
    (h : ∀ s db db' answer, I db → db.apply s = .ok (db', answer) → I db') (r : Request)
    (hdb : I db) : I (db.run r).2 := by
  cases r with
  | batch closed ss => exact run_batch_preserves (fun s _ => h s) hdb
  | raw text => exact runText_preserves h _ _ _ hdb

/-! ## Listed tables -/

/-- The table that is found under a name has just this name. -/
def Listed (db : Database) (name : String) : Prop := ∃ t, db.table? name = some t ∧ t.name = name

instance (db : Database) (name : String) : Decidable (db.Listed name) :=
  match h : db.table? name with
  | none => isFalse fun ⟨_, ht, _⟩ => nomatch h.symm.trans ht
  | some t => decidable_of_iff (t.name = name)
      ⟨fun hn => ⟨t, h, hn⟩, fun ⟨u, hu, hn⟩ => by rw [h] at hu; cases hu; exact hn⟩

theorem Listed.isSome {name : String} (h : db.Listed name) : (db.table? name).isSome = true := by
  obtain ⟨t, ht, -⟩ := h
  rw [ht]
  rfl

/-- In lower case, a table that is found is listed. -/
theorem IsLowerCased.listed (h : db.IsLowerCased) {name : String} (hname : IsLower name)
    (hsome : (db.table? name).isSome = true) : db.Listed name := by
  obtain ⟨t, ht⟩ := Option.isSome_iff_exists.1 hsome
  exact ⟨t, ht, eq_of_sameName (h t (table?_mem ht)) hname (table?_name ht)⟩

theorem Listed.congr {name : String} (h : db.Listed name) (hdb : db'.table? name = db.table? name) :
    db'.Listed name := by rwa [Listed, hdb]

/-- A listed table stays listed unless it is dropped. -/
theorem apply_listed {s : Statement} {answer : Option (List Row)} {name : String}
    (h : db.apply s = .ok (db', answer))
    (hd : ∀ ifPresent dropped, s = .drop ifPresent dropped → sameName dropped name = false)
    (hlisted : db.Listed name) : db'.Listed name := by
  obtain ⟨u, hu, hname⟩ := hlisted
  obtain rfl | ⟨ia, n, cs, list, keys, rfl, -, rfl⟩ | ⟨ip, n, rfl, rfl⟩ | ⟨n, hs, t, rows, ht, rfl⟩ :=
    apply_cases h
  · exact ⟨u, hu, hname⟩
  · exact ⟨u, by rw [table?_add, hu]; rfl, hname⟩
  · exact ⟨u, by rw [table?_remove, if_neg (by simp [hd ip n rfl]), hu], hname⟩
  · rw [Listed, table?_replace, hu]
    split
    · next hsame =>
      have htu : db.table? name = some t := by
        rw [← table?_congr hsame, table?_congr (table?_name ht), ht]
      rw [hu] at htu
      cases htu
      exact ⟨_, rfl, hname⟩
    · exact ⟨u, rfl, hname⟩

end Store.Database

end Provenance
