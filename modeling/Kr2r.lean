import Kr2r.Basic
import Kr2r.SpacedSeed
import Kr2r.Text
import Kr2r.SeqIdMap
import Kr2r.IdFiles
import Kr2r.Reader
import Kr2r.HitRows
import Kr2r.Squid
import Kr2r.FileNames
import Kr2r.Resolve
import Kr2r.HashShard
import Kr2r.BuildK2Db
import Kr2r.Parallel
