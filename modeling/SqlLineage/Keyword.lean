import SqlLineage.Text.Fold

/-!
# Keywords

Words that are not names. All lists are in upper case and are compared up to ASCII case; the lists that
belong to one clause stand beside the reader of that clause.
-/

namespace SqlLineage.Keyword
open SqlLineage.Text
set_option autoImplicit false

/-- Words that are no column, alias or table name when they stand alone and unquoted. -/
def ignored : List String :=
  ["SELECT", "FROM", "WHERE", "GROUP", "BY", "ORDER", "HAVING", "LIMIT", "OFFSET", "JOIN",
   "ON", "AS", "AND", "OR", "NOT", "IN", "IS", "NULL", "CASE", "WHEN", "THEN", "ELSE", "END",
   "DISTINCT", "ALL", "UNION", "EXCEPT", "INTERSECT", "WITH", "RECURSIVE", "MATERIALIZED",
   "VIEW", "TABLE", "CREATE", "DROP", "ALTER", "TRUNCATE", "INSERT", "UPDATE", "DELETE",
   "DEFAULT", "PRIMARY", "KEY", "FOREIGN", "REFERENCES", "CONSTRAINT", "INDEX", "CHECK",
   "UNIQUE", "DISTSTYLE", "DISTKEY", "SORTKEY", "COMPOUND", "INTERLEAVED", "EVEN", "AUTO",
   "REFRESH", "BACKUP", "ENCODING", "LATERAL", "WINDOW", "QUALIFY", "OVER", "UNNEST", "APPLY",
   "TOP", "COUNT", "MIN", "MAX", "AVG", "SUM", "LEAD", "LAG", "PARTITION", "RANK",
   "DENSE_RANK", "ROW_NUMBER", "NTILE", "FIRST_VALUE", "LAST_VALUE", "NTH_VALUE", "COALESCE",
   "ABS", "DRIFT", "STABLE", "CURRENT_DATE", "CURRENT_TIMESTAMP", "CURRENT_USER", "INTERVAL",
   "DATE", "TIMESTAMP", "DAY", "DAYS", "MONTH", "MONTHS", "YEAR", "YEARS", "HOUR", "HOURS",
   "MINUTE", "MINUTES", "SECOND", "SECONDS", "INT", "INTEGER", "VARCHAR", "TEXT", "DECIMAL",
   "NUMERIC", "BOOLEAN", "ROW", "ROWS", "CAST", "ROUND", "IDENTITY", "LEFT", "RIGHT", "INNER",
   "OUTER", "CROSS", "FULL", "NATURAL", "SELF", "TRUE", "FALSE", "BETWEEN", "LIKE", "ILIKE",
   "ASC", "DESC", "NULLS", "FIRST", "LAST", "USING", "EXISTS", "REPLACE", "PASS", "FAIL",
   "FETCH", "NEXT", "ONLY", "FOR", "PRECEDING", "FOLLOWING", "UNBOUNDED", "CURRENT", "AT",
   "TIME", "ZONE", "COLLATE", "ESCAPE", "SIMILAR", "INTO", "VALUES", "SET", "PERCENT", "TIES"]

/-- Words that begin a table-level constraint or option inside a column block. -/
def constraints : List String :=
  ["CONSTRAINT", "PRIMARY", "FOREIGN", "KEY", "INDEX", "CHECK", "UNIQUE", "SORTKEY", "DISTKEY",
   "DISTSTYLE", "COMPOUND", "INTERLEAVED", "FULLTEXT", "SPATIAL", "LIKE", "EXCLUDE", "PERIOD"]

/-- Words that are no column name at the head of a definition, unless quoted. -/
def reservedForColumns : List String :=
  constraints ++
    ["SELECT", "FROM", "WHERE", "CREATE", "TABLE", "AS", "WITH", "AND", "OR", "NOT", "NULL",
     "DEFAULT", "REFERENCES", "ON"]

/-- Whether an unquoted word is no name: it is empty, a keyword, or made of digits and points. -/
def isIgnored (word : String) : Bool :=
  word.isEmpty || ignored.contains (foldCase word) ||
    word.toList.all fun c => c.isDigit || c == '.'

/-- Whether an unquoted word cannot be the name of a column that is declared. -/
def isReservedForColumns (word : String) : Bool :=
  reservedForColumns.contains (foldCase word)

end SqlLineage.Keyword
